import ZenohProxy.Basic

/-!
# The messages

A message lists its members once, in `reflect`, for a serializer and a deserializer alike
(`broker_protocol.h`). A `Reflector` is what the template needs of either: the overload of
`member` a call resolves to is named by its parameter type. Names and descriptions of
members are passed along in the source and read by neither side; they are left out.
-/

namespace ZenohProxy

/-- What `reflect` calls. A member taken by reference comes back, changed or not. -/
class Reflector (R : Type) where
  begin_ : R → R
  end_ : R → R
  /-- `member(const int &)` -/
  memberConst : Int → R → R
  /-- `member(int &)` -/
  memberInt : Int → R → Int × R
  /-- `member(string &)` -/
  memberString : Str → R → Str × R
  /-- `member(bytes &)` -/
  memberBytes : Bytes → R → Bytes × R

open Reflector

/-- `MsgType`. -/
inductive MsgType where
  | connect
  | disconnect
  | subscriber
  | publisher
  | publish
  | resource
  deriving DecidableEq, Repr

/-- The value of the enumerator on the wire. -/
def MsgType.code : MsgType → Int
  | .connect => 0
  | .disconnect => 1
  | .subscriber => 2
  | .publisher => 3
  | .publish => 4
  | .resource => 5

theorem MsgType.isInt32_code (k : MsgType) : IsInt32 k.code := by
  cases k <;> decide

theorem MsgType.code_inj {k k' : MsgType} : k.code = k'.code ↔ k = k' := by
  cases k <;> cases k' <;> decide

structure MsgBase where
  msgType : Int
  deriving DecidableEq, Repr

structure MsgConnect where
  clientId : Str
  deriving DecidableEq, Repr

structure MsgDisconnect where
  deriving DecidableEq, Repr

structure MsgPublish where
  id : Int
  value : Bytes
  deriving DecidableEq, Repr

structure MsgPublisher where
  id : Int
  topic : Str
  deriving DecidableEq, Repr

structure MsgSubscriber where
  id : Int
  topic : Str
  deriving DecidableEq, Repr

section

variable {R : Type} [Reflector R]

def MsgBase.reflect (m : MsgBase) (r : R) : MsgBase × R :=
  let (msgType, r) := memberInt m.msgType (begin_ r)
  (⟨msgType⟩, end_ r)

def MsgConnect.reflect (m : MsgConnect) (r : R) : MsgConnect × R :=
  let r := memberConst MsgType.connect.code (begin_ r)
  let (clientId, r) := memberString m.clientId r
  (⟨clientId⟩, end_ r)

def MsgDisconnect.reflect (m : MsgDisconnect) (r : R) : MsgDisconnect × R :=
  (m, end_ (memberConst MsgType.disconnect.code (begin_ r)))

def MsgPublish.reflect (m : MsgPublish) (r : R) : MsgPublish × R :=
  let r := memberConst MsgType.publish.code (begin_ r)
  let (id, r) := memberInt m.id r
  let (value, r) := memberBytes m.value r
  (⟨id, value⟩, end_ r)

/-- What `MsgPublisher` and `MsgSubscriber` list, for their own type. -/
def reflectRegistration (type : MsgType) (id : Int) (topic : Str) (r : R) : (Int × Str) × R :=
  let r := memberConst type.code (begin_ r)
  let (id, r) := memberInt id r
  let (topic, r) := memberString topic r
  ((id, topic), end_ r)

def MsgPublisher.reflect (m : MsgPublisher) (r : R) : MsgPublisher × R :=
  let (members, r) := reflectRegistration .publisher m.id m.topic r
  (⟨members.1, members.2⟩, r)

def MsgSubscriber.reflect (m : MsgSubscriber) (r : R) : MsgSubscriber × R :=
  let (members, r) := reflectRegistration .subscriber m.id m.topic r
  (⟨members.1, members.2⟩, r)

end

end ZenohProxy
