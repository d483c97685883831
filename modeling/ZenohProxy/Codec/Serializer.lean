import ZenohProxy.Codec.Messages
import ZenohProxy.Codec.TinyCbor
import ZenohProxy.Lib.Cbor.Scalars

/-!
# The serializer

`CborSerializer` writes one array of indefinite length into a buffer of fixed capacity. Every
member but a string asserts that the library reported no error, and so do `begin` and `end`;
`toBytes` trusts the size the library computes at the end.

`Wrote` follows what has been handed to the library since `begin`. `Finished` is what a whole
message comes to: the asserts hold exactly when the encoding fits the capacity, and then
`toBytes` is the encoding.
-/

namespace ZenohProxy

/-- `memory` is the content of `_buffer`, and `address` where it lies. Once the buffer is
exceeded only the count is followed. -/
structure CborSerializer (T : TinyCbor) where
  capacity : Nat
  address : Nat
  memory : Bytes
  root : CborEncoder
  encoder : CborEncoder
  err : CborError
  size : Nat
  /-- A failing `assert` was reached. -/
  assertFailed : Bool
  deriving DecidableEq

/-- The buffer after an encoder has written to it. -/
def CborEncoder.store : CborEncoder → Bytes → Bytes
  | .writing written _, memory => written ++ memory.drop written.length
  | .counting _, memory => memory

namespace CborSerializer

variable {T : TinyCbor}

/-- What the constructor leaves, on memory that was all zero. -/
def new (T : TinyCbor) (capacity : Nat) : CborSerializer T :=
  ⟨capacity, 0, List.replicate capacity 0, .writing [] 0, .writing [] 0, .noError, 0, false⟩

/-- `assert(_err == 0)`. -/
def assertNoError (s : CborSerializer T) : CborSerializer T :=
  { s with assertFailed := s.assertFailed || s.err ≠ .noError }

/-- Takes over what a call on `_encoder` answers. -/
def put (s : CborSerializer T) (r : CborError × CborEncoder) : CborSerializer T :=
  { s with err := r.1, encoder := r.2, memory := r.2.store s.memory }

/-- `member(const int &)` -/
def memberConst (t : Int) (s : CborSerializer T) : CborSerializer T :=
  (s.put (T.encodeInt s.encoder t)).assertNoError

/-- `member(int &)` -/
def memberInt (t : Int) (s : CborSerializer T) : CborSerializer T :=
  (s.put (T.encodeInt s.encoder t)).assertNoError

/-- `member(uint64_t &)` -/
def memberUint64 (t : Nat) (s : CborSerializer T) : CborSerializer T :=
  (s.put (T.encodeUint s.encoder t)).assertNoError

/-- `member(string &)` makes no assertion. -/
def memberString (t : Str) (s : CborSerializer T) : CborSerializer T :=
  s.put (T.encodeTextString s.encoder t)

/-- `member(bytes &)` -/
def memberBytes (t : Bytes) (s : CborSerializer T) : CborSerializer T :=
  (s.put (T.encodeByteString s.encoder t)).assertNoError

def begin_ (s : CborSerializer T) : CborSerializer T :=
  let root := T.encoderInit s.capacity
  (({ s with root } : CborSerializer T).put (T.createArray root)).assertNoError

def end_ (s : CborSerializer T) : CborSerializer T :=
  let r := T.closeContainer s.root s.encoder
  let s : CborSerializer T :=
    assertNoError { s with root := r.2, err := r.1, memory := r.2.store s.memory }
  { s with size := T.bufferSize s.root s.address }

/-- The first `_size` octets of the buffer; `none` when they go beyond it. -/
def toBytes (s : CborSerializer T) : Option Bytes :=
  if s.size ≤ s.capacity then some (s.memory.take s.size) else none

end CborSerializer

instance (T : TinyCbor) : Reflector (CborSerializer T) where
  begin_ := CborSerializer.begin_
  end_ := CborSerializer.end_
  memberConst := CborSerializer.memberConst
  memberInt t s := (t, s.memberInt t)
  memberString t s := (t, s.memberString t)
  memberBytes t s := (t, s.memberBytes t)

/-! ## What an encoder has been handed -/

/-- The encoder of a buffer after some octets. -/
def CborEncoder.ofBytes (capacity : Nat) (bs : Bytes) : CborEncoder :=
  if bs.length ≤ capacity then .writing bs (capacity - bs.length)
  else .counting (bs.length - capacity)

/-- Appending is reported to fail exactly when the octets together exceed the buffer. -/
theorem CborEncoder.append_ofBytes (capacity : Nat) (bs more : Bytes) :
    (CborEncoder.ofBytes capacity bs).append more
      = (if (bs ++ more).length ≤ capacity then .noError else .outOfMemory,
          CborEncoder.ofBytes capacity (bs ++ more)) := by
  unfold CborEncoder.ofBytes
  rw [List.length_append]
  by_cases hbs : bs.length ≤ capacity
  · rw [if_pos hbs, CborEncoder.append]
    -- the buffer may be exceeded by what is appended
    by_cases hmore : bs.length + more.length ≤ capacity
    · rw [if_pos (by omega), if_pos hmore, if_pos hmore,
        show capacity - bs.length - more.length = capacity - (bs.length + more.length) by omega]
    · rw [if_neg (by omega), if_neg hmore, if_neg hmore,
        show more.length - (capacity - bs.length) = bs.length + more.length - capacity by omega]
  -- or have been before
  · rw [if_neg hbs, CborEncoder.append, if_neg (by omega), if_neg (by omega),
      show bs.length - capacity + more.length = bs.length + more.length - capacity by omega]

namespace CborSerializer

variable {T : TinyCbor}

/-- `s` is `s₀` after `begin` and members that come to the octets `bs`. -/
structure Wrote (s₀ : CborSerializer T) (bs : Bytes) (s : CborSerializer T) : Prop where
  capacity : s.capacity = s₀.capacity
  encoder : s.encoder = .ofBytes s₀.capacity bs
  asserts : bs.length ≤ s₀.capacity → s.assertFailed = s₀.assertFailed

/-- `s` is `s₀` after a whole message that comes to the octets `bs`. -/
structure Finished (s₀ : CborSerializer T) (bs : Bytes) (s : CborSerializer T) : Prop where
  capacity : s.capacity = s₀.capacity
  asserts : s.assertFailed = (s₀.assertFailed || decide (s₀.capacity < bs.length))
  toBytes : bs.length ≤ s₀.capacity → s.toBytes = some bs

section

variable {s₀ s : CborSerializer T} {bs more : Bytes}

theorem Wrote.put (h : Wrote s₀ bs s) (more : Bytes) :
    Wrote s₀ (bs ++ more) (s.put (s.encoder.append more)) where
  capacity := h.capacity
  encoder := by rw [h.encoder, CborEncoder.append_ofBytes]; rfl
  asserts hfit := by
    rw [List.length_append] at hfit
    exact h.asserts (by omega)

/-- An assertion that follows an append holds if the octets fit. -/
theorem Wrote.putAssert (h : Wrote s₀ bs s) (more : Bytes) :
    Wrote s₀ (bs ++ more) (s.put (s.encoder.append more)).assertNoError where
  capacity := h.capacity
  encoder := (h.put more).encoder
  asserts hfit := by
    have herr : (s.put (s.encoder.append more)).err = .noError := by
      rw [h.encoder, CborEncoder.append_ofBytes, if_pos hfit]
      rfl
    rw [assertNoError, herr, ← (h.put more).asserts hfit]
    simp

theorem wrote_begin (hT : T.Documented) (s : CborSerializer T) :
    Wrote s (Cbor.openArray []) s.begin_ := by
  -- the root encoder is one that was handed nothing
  have hroot : Wrote s [] { s with root := T.encoderInit s.capacity,
                                   encoder := T.encoderInit s.capacity } :=
    { capacity := rfl
      encoder := by simp [hT.encoderInit, CborEncoder.ofBytes]
      asserts := fun _ => rfl }
  have := hroot.putAssert [0x9F]
  rwa [← hT.createArray] at this

variable {xs : List Cbor.Scalar}

theorem Wrote.memberConst (hT : T.Documented) (h : Wrote s₀ (Cbor.openArray xs) s) (t : Int) :
    Wrote s₀ (Cbor.openArray (xs ++ [.int t])) (s.memberConst t) := by
  rw [CborSerializer.memberConst, hT.encodeInt, ← Cbor.openArray_append]
  exact h.putAssert _

theorem Wrote.memberInt (hT : T.Documented) (h : Wrote s₀ (Cbor.openArray xs) s) (t : Int) :
    Wrote s₀ (Cbor.openArray (xs ++ [.int t])) (s.memberInt t) := by
  rw [CborSerializer.memberInt, hT.encodeInt, ← Cbor.openArray_append]
  exact h.putAssert _

theorem Wrote.memberString (hT : T.Documented) (h : Wrote s₀ (Cbor.openArray xs) s)
    (t : Str) : Wrote s₀ (Cbor.openArray (xs ++ [.string .text t])) (s.memberString t) := by
  rw [CborSerializer.memberString, hT.encodeTextString, ← Cbor.openArray_append]
  exact h.put _

theorem Wrote.memberBytes (hT : T.Documented) (h : Wrote s₀ (Cbor.openArray xs) s)
    (t : Bytes) : Wrote s₀ (Cbor.openArray (xs ++ [.string .bytes t])) (s.memberBytes t) := by
  rw [CborSerializer.memberBytes, hT.encodeByteString, ← Cbor.openArray_append]
  exact h.putAssert _

/-- **A message is finished with every assertion holding if and only if it fits.** -/
theorem Wrote.end_ (hT : T.Documented) (h : Wrote s₀ (Cbor.openArray xs) s) :
    Finished s₀ (Cbor.encodeArray xs) s.end_ := by
  have hclose : T.closeContainer s.root s.encoder
      = (if (Cbor.encodeArray xs).length ≤ s₀.capacity then .noError else .outOfMemory,
          CborEncoder.ofBytes s₀.capacity (Cbor.encodeArray xs)) := by
    rw [hT.closeContainer, h.encoder]
    exact CborEncoder.append_ofBytes s₀.capacity (Cbor.openArray xs) [0xFF]
  -- the break is the last octet that is appended
  have hcapacity : s.end_.capacity = s₀.capacity := h.capacity
  by_cases hfit : (Cbor.encodeArray xs).length ≤ s₀.capacity
  · rw [if_pos hfit, CborEncoder.ofBytes, if_pos hfit] at hclose
    refine ⟨hcapacity, ?_, fun _ => ?_⟩
    · have hopen : (Cbor.openArray xs).length ≤ s₀.capacity := by
        rw [Cbor.length_encodeArray] at hfit
        rw [Cbor.openArray, List.length_cons]
        omega
      rw [CborSerializer.end_, hclose]
      simp [assertNoError, h.asserts hopen, Nat.not_lt.mpr hfit]
    · have hsize : s.end_.size = (Cbor.encodeArray xs).length := by
        rw [CborSerializer.end_, hclose]
        exact hT.bufferSize _ _
      have hmemory : s.end_.memory
          = Cbor.encodeArray xs ++ s.memory.drop (Cbor.encodeArray xs).length := by
        rw [CborSerializer.end_, hclose]
        rfl
      rw [CborSerializer.toBytes, hsize, hcapacity, if_pos hfit, hmemory, List.take_left]
  · rw [if_neg hfit] at hclose
    refine ⟨hcapacity, ?_, fun hle => absurd hle hfit⟩
    rw [CborSerializer.end_, hclose]
    simp [assertNoError, Nat.lt_of_not_le hfit]

end

end CborSerializer

/-! ## Messages -/

open CborSerializer

/-- The elements of the array that stands for a message. -/
def MsgConnect.elements (m : MsgConnect) : List Cbor.Scalar :=
  [.int MsgType.connect.code, .string .text m.clientId]

def MsgDisconnect.elements (_ : MsgDisconnect) : List Cbor.Scalar :=
  [.int MsgType.disconnect.code]

def MsgPublish.elements (m : MsgPublish) : List Cbor.Scalar :=
  [.int MsgType.publish.code, .int m.id, .string .bytes m.value]

def registrationElements (type : MsgType) (id : Int) (topic : Str) : List Cbor.Scalar :=
  [.int type.code, .int id, .string .text topic]

def MsgPublisher.elements (m : MsgPublisher) : List Cbor.Scalar :=
  registrationElements .publisher m.id m.topic

def MsgSubscriber.elements (m : MsgSubscriber) : List Cbor.Scalar :=
  registrationElements .subscriber m.id m.topic

section

variable {T : TinyCbor} (hT : T.Documented) (s : CborSerializer T)
include hT

theorem MsgConnect.reflect_finished (m : MsgConnect) :
    Finished s (Cbor.encodeArray m.elements) (m.reflect s).2 :=
  (((wrote_begin hT s).memberConst hT _).memberString hT m.clientId).end_ hT

theorem MsgDisconnect.reflect_finished (m : MsgDisconnect) :
    Finished s (Cbor.encodeArray m.elements) (m.reflect s).2 :=
  ((wrote_begin hT s).memberConst hT _).end_ hT

theorem MsgPublish.reflect_finished (m : MsgPublish) :
    Finished s (Cbor.encodeArray m.elements) (m.reflect s).2 :=
  ((((wrote_begin hT s).memberConst hT _).memberInt hT m.id).memberBytes hT m.value).end_ hT

theorem reflectRegistration_finished (type : MsgType) (id : Int) (topic : Str) :
    Finished s (Cbor.encodeArray (registrationElements type id topic))
      (reflectRegistration type id topic s).2 :=
  ((((wrote_begin hT s).memberConst hT _).memberInt hT id).memberString hT topic).end_ hT

theorem MsgPublisher.reflect_finished (m : MsgPublisher) :
    Finished s (Cbor.encodeArray m.elements) (m.reflect s).2 :=
  reflectRegistration_finished hT s .publisher m.id m.topic

theorem MsgSubscriber.reflect_finished (m : MsgSubscriber) :
    Finished s (Cbor.encodeArray m.elements) (m.reflect s).2 :=
  reflectRegistration_finished hT s .subscriber m.id m.topic

end

end ZenohProxy
