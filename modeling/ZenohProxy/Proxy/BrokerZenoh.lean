import Mathlib.Data.List.AList
import ZenohProxy.Basic

/-!
# The broker of the proxy

`BrokerZenoh` keeps one zenoh session and two tables, from the identifiers of a client to
its subscriptions and its publishers. Zenoh itself is not part of the repository: `Zenoh`
gives an answer to each call, which may depend on all calls made before. The calls are kept
in the state of the model, in order and with their answers.

An identifier that is in a table is not registered again, and only `disconnect` empties the
tables. The session is opened once and never closed.
-/

namespace ZenohProxy

/-- A pointer that zenoh hands out; `none` is the null pointer. -/
abbrev Handle := Option Nat

/-- `zn_reskey_t`: the number of a declared resource, or its name. -/
inductive ResKey where
  | rid (n : Nat)
  | rname (name : Str)
  deriving DecidableEq, Repr

/-- A call of zenoh and its answer. A subscription is declared with the identifier and the
callback that `subscribeHandler` finds in its argument. -/
inductive ZnCall (κ : Type) where
  | open_ (session : Handle)
  | declareResource (session : Handle) (key : ResKey) (rid : Nat)
  | declareSubscriber (session : Handle) (key : ResKey) (id : Int) (callback : κ)
      (sub : Handle)
  | undeclareSubscriber (sub : Handle)
  | declarePublisher (session : Handle) (key : ResKey) (pub : Handle)
  | undeclarePublisher (pub : Handle)
  | write (session : Handle) (key : ResKey) (data : Bytes) (rc : Int)
  deriving DecidableEq, Repr

/-- The answers of zenoh, given the calls before. -/
structure Zenoh (κ : Type) where
  open_ : List (ZnCall κ) → Handle
  declareResource : List (ZnCall κ) → Handle → ResKey → Nat
  declareSubscriber : List (ZnCall κ) → Handle → ResKey → Handle
  declarePublisher : List (ZnCall κ) → Handle → ResKey → Handle
  write : List (ZnCall κ) → Handle → ResKey → Bytes → Int

structure Sub (κ : Type) where
  id : Int
  key : Str
  callback : κ
  znSubscriber : Handle
  deriving DecidableEq, Repr

structure Pub where
  id : Int
  key : Str
  znReskey : ResKey
  znPublisher : Handle
  deriving DecidableEq, Repr

/-- `κ` is the type of the callbacks. -/
structure BrokerZenoh (κ : Type) where
  session : Handle
  subscribers : AList fun _ : Int => Sub κ
  publishers : AList fun _ : Int => Pub
  /-- The calls made so far. -/
  calls : List (ZnCall κ)

def enoent : Int := 2

namespace BrokerZenoh

variable {κ : Type}

/-- The constructor. -/
def new : BrokerZenoh κ := ⟨none, ∅, ∅, []⟩

def call (b : BrokerZenoh κ) (c : ZnCall κ) : BrokerZenoh κ := { b with calls := b.calls ++ [c] }

def connect (z : Zenoh κ) (b : BrokerZenoh κ) (_clientId : Str) : BrokerZenoh κ × Int :=
  let b : BrokerZenoh κ :=
    if b.session = none then
      let session := z.open_ b.calls
      { b.call (.open_ session) with session }
    else b
  (b, if b.session = none then -1 else 0)

/-- Zenoh is told about the subscriptions first, in the order of the table. -/
def disconnect (b : BrokerZenoh κ) : BrokerZenoh κ × Int :=
  ({ b with
      subscribers := ∅
      publishers := ∅
      calls := b.calls
        ++ b.subscribers.entries.map (fun e => .undeclareSubscriber e.2.znSubscriber)
        ++ b.publishers.entries.map (fun e => .undeclarePublisher e.2.znPublisher) }, 0)

def subscriber (z : Zenoh κ) (b : BrokerZenoh κ) (id : Int) (pattern : Str) (callback : κ) :
    BrokerZenoh κ × Int :=
  match b.subscribers.lookup id with
  | some _ => (b, 0)
  | none =>
    let key := ResKey.rname (cStr pattern)
    let zsub := z.declareSubscriber b.calls b.session key
    let b := b.call (.declareSubscriber b.session key id callback zsub)
    -- a subscription that zenoh does not declare is not entered
    if zsub = none then (b, -1)
    else ({ b with subscribers := b.subscribers.insert id ⟨id, pattern, callback, zsub⟩ }, 0)

/-- The entry stays in the table. -/
def unSubscribe (b : BrokerZenoh κ) (id : Int) : BrokerZenoh κ × Int :=
  match b.subscribers.lookup id with
  | none => (b, 0)
  | some sub => (b.call (.undeclareSubscriber sub.znSubscriber), 0)

/-- `resource`. -/
def resource (z : Zenoh κ) (b : BrokerZenoh κ) (topic : Str) : BrokerZenoh κ × ResKey :=
  let key := ResKey.rname (cStr topic)
  let rid := z.declareResource b.calls b.session key
  (b.call (.declareResource b.session key rid), .rid rid)

/-- A publisher that zenoh does not declare is registered all the same. -/
def publisher (z : Zenoh κ) (b : BrokerZenoh κ) (id : Int) (key : Str) :
    BrokerZenoh κ × Int :=
  match b.publishers.lookup id with
  | some _ => (b, 0)
  | none =>
    let (b, reskey) := b.resource z key
    let pub := z.declarePublisher b.calls b.session reskey
    let b := b.call (.declarePublisher b.session reskey pub)
    ({ b with publishers := b.publishers.insert id ⟨id, key, reskey, pub⟩ }, 0)

def publish (z : Zenoh κ) (b : BrokerZenoh κ) (id : Int) (bs : Bytes) : BrokerZenoh κ × Int :=
  match b.publishers.lookup id with
  | some pub =>
    let rc := z.write b.calls b.session pub.znReskey bs
    (b.call (.write b.session pub.znReskey bs rc), rc)
  | none => (b, enoent)

end BrokerZenoh

/-! ## Runs -/

/-- The calls of the broker's functions. -/
inductive BrokerOp (κ : Type) where
  | connect (clientId : Str)
  | disconnect
  | subscriber (id : Int) (pattern : Str) (callback : κ)
  | unSubscribe (id : Int)
  | publisher (id : Int) (key : Str)
  | publish (id : Int) (bs : Bytes)
  deriving DecidableEq, Repr

/-- An identifier in one of the two tables. -/
inductive Slot where
  | subscriber (id : Int)
  | publisher (id : Int)
  deriving DecidableEq, Repr

/-- What a call registers. -/
def BrokerOp.slot {κ : Type} : BrokerOp κ → Option Slot
  | .subscriber id _ _ => some (.subscriber id)
  | .publisher id _ => some (.publisher id)
  | _ => none

namespace BrokerZenoh

variable {κ : Type}

def step (z : Zenoh κ) (b : BrokerZenoh κ) : BrokerOp κ → BrokerZenoh κ × Int
  | .connect clientId => b.connect z clientId
  | .disconnect => b.disconnect
  | .subscriber id pattern callback => b.subscriber z id pattern callback
  | .unSubscribe id => b.unSubscribe id
  | .publisher id key => b.publisher z id key
  | .publish id bs => b.publish z id bs

def run (z : Zenoh κ) (b : BrokerZenoh κ) (ops : List (BrokerOp κ)) : BrokerZenoh κ :=
  ops.foldl (fun b op => (b.step z op).1) b

@[simp] theorem run_nil (z : Zenoh κ) (b : BrokerZenoh κ) : b.run z [] = b := rfl

@[simp] theorem run_cons (z : Zenoh κ) (b : BrokerZenoh κ) (op : BrokerOp κ)
    (ops : List (BrokerOp κ)) : b.run z (op :: ops) = (b.step z op).1.run z ops := rfl

theorem run_append (z : Zenoh κ) (b : BrokerZenoh κ) (ops ops' : List (BrokerOp κ)) :
    b.run z (ops ++ ops') = (b.run z ops).run z ops' := List.foldl_append

/-! ## What a step does -/

section

variable {z : Zenoh κ} {b : BrokerZenoh κ}

@[simp] theorem call_session (c : ZnCall κ) : (b.call c).session = b.session := rfl

@[simp] theorem call_subscribers (c : ZnCall κ) : (b.call c).subscribers = b.subscribers := rfl

@[simp] theorem call_publishers (c : ZnCall κ) : (b.call c).publishers = b.publishers := rfl

@[simp] theorem call_calls (c : ZnCall κ) : (b.call c).calls = b.calls ++ [c] := rfl

/-- Connecting leaves the tables alone and opens a session if there is none. -/
theorem connect_spec (clientId : Str) :
    (b.session ≠ none ∧ b.connect z clientId = (b, 0)) ∨
      (b.session = none ∧ b.connect z clientId
        = ({ b.call (.open_ (z.open_ b.calls)) with session := z.open_ b.calls },
          if z.open_ b.calls = none then -1 else 0)) := by
  unfold connect
  by_cases hnull : b.session = none
  · exact .inr ⟨hnull, by simp only [if_pos hnull]⟩
  · exact .inl ⟨hnull, by simp only [if_neg hnull]⟩

/-- A subscription is declared if the identifier is not in the table, and entered if zenoh
answers with one. -/
theorem subscriber_spec (id : Int) (pattern : Str) (callback : κ) :
    (b.subscribers.lookup id ≠ none ∧ b.subscriber z id pattern callback = (b, 0)) ∨
      (b.subscribers.lookup id = none ∧ ∃ zsub,
        zsub = z.declareSubscriber b.calls b.session (.rname (cStr pattern)) ∧
        let b' := b.call (.declareSubscriber b.session (.rname (cStr pattern)) id callback zsub)
        b.subscriber z id pattern callback = if zsub = none then (b', -1)
          else ({ b' with
            subscribers := b.subscribers.insert id ⟨id, pattern, callback, zsub⟩ }, 0)) := by
  unfold subscriber
  cases hid : b.subscribers.lookup id with
  | some sub => exact .inl ⟨by simp, rfl⟩
  | none => exact .inr ⟨rfl, _, rfl, rfl⟩

theorem publisher_spec (id : Int) (key : Str) :
    (b.publishers.lookup id ≠ none ∧ b.publisher z id key = (b, 0)) ∨
      (b.publishers.lookup id = none ∧ ∃ rid pub,
        rid = z.declareResource b.calls b.session (.rname (cStr key)) ∧
        pub = z.declarePublisher (b.calls ++
          [.declareResource b.session (.rname (cStr key)) rid]) b.session (.rid rid) ∧
        b.publisher z id key = ({ b with
          publishers := b.publishers.insert id ⟨id, key, .rid rid, pub⟩
          calls := b.calls ++ [.declareResource b.session (.rname (cStr key)) rid,
            .declarePublisher b.session (.rid rid) pub] }, 0)) := by
  unfold publisher
  cases hid : b.publishers.lookup id with
  | some pub => exact .inl ⟨by simp, rfl⟩
  | none =>
    refine .inr ⟨rfl, _, _, rfl, rfl, ?_⟩
    simp [resource, call]

theorem publish_spec (id : Int) (bs : Bytes) :
    (b.publishers.lookup id = none ∧ b.publish z id bs = (b, enoent)) ∨
      (∃ pub, b.publishers.lookup id = some pub ∧ b.publish z id bs
        = (b.call (.write b.session pub.znReskey bs
            (z.write b.calls b.session pub.znReskey bs)),
          z.write b.calls b.session pub.znReskey bs)) := by
  unfold publish
  cases hid : b.publishers.lookup id with
  | none => exact .inl ⟨rfl, rfl⟩
  | some pub => exact .inr ⟨pub, rfl, rfl⟩

/-- All that a call of the broker can do, with its result. -/
inductive Effect (z : Zenoh κ) (b : BrokerZenoh κ) : BrokerOp κ → BrokerZenoh κ × Int → Prop where
  | connected (clientId : Str) (hsession : b.session ≠ none) :
      Effect z b (.connect clientId) (b, 0)
  | opened (clientId : Str) (hsession : b.session = none) :
      Effect z b (.connect clientId)
        ({ b.call (.open_ (z.open_ b.calls)) with session := z.open_ b.calls },
          if z.open_ b.calls = none then -1 else 0)
  | disconnected : Effect z b .disconnect b.disconnect
  | subscribed (id : Int) (pattern : Str) (callback : κ) (hid : b.subscribers.lookup id ≠ none) :
      Effect z b (.subscriber id pattern callback) (b, 0)
  | subscriberRefused (id : Int) (pattern : Str) (callback : κ)
      (hid : b.subscribers.lookup id = none)
      (hsub : z.declareSubscriber b.calls b.session (.rname (cStr pattern)) = none) :
      Effect z b (.subscriber id pattern callback)
        (b.call (.declareSubscriber b.session (.rname (cStr pattern)) id callback none), -1)
  | subscriberDeclared (id : Int) (pattern : Str) (callback : κ) (sub : Nat)
      (hid : b.subscribers.lookup id = none)
      (hsub : z.declareSubscriber b.calls b.session (.rname (cStr pattern)) = some sub) :
      Effect z b (.subscriber id pattern callback)
        ({ b.call (.declareSubscriber b.session (.rname (cStr pattern)) id callback (some sub)) with
          subscribers := b.subscribers.insert id ⟨id, pattern, callback, some sub⟩ }, 0)
  | notSubscribed (id : Int) (hid : b.subscribers.lookup id = none) :
      Effect z b (.unSubscribe id) (b, 0)
  | unSubscribed (id : Int) (sub : Sub κ) (hid : b.subscribers.lookup id = some sub) :
      Effect z b (.unSubscribe id) (b.call (.undeclareSubscriber sub.znSubscriber), 0)
  | published (id : Int) (key : Str) (hid : b.publishers.lookup id ≠ none) :
      Effect z b (.publisher id key) (b, 0)
  | publisherEntered (id : Int) (key : Str) (rid : Nat) (pub : Handle)
      (hid : b.publishers.lookup id = none)
      (hrid : rid = z.declareResource b.calls b.session (.rname (cStr key)))
      (hpub : pub = z.declarePublisher (b.calls ++
        [.declareResource b.session (.rname (cStr key)) rid]) b.session (.rid rid)) :
      Effect z b (.publisher id key) ({ b with
        publishers := b.publishers.insert id ⟨id, key, .rid rid, pub⟩
        calls := b.calls ++ [.declareResource b.session (.rname (cStr key)) rid,
          .declarePublisher b.session (.rid rid) pub] }, 0)
  | unknown (id : Int) (bs : Bytes) (hid : b.publishers.lookup id = none) :
      Effect z b (.publish id bs) (b, enoent)
  | written (id : Int) (bs : Bytes) (pub : Pub) (hid : b.publishers.lookup id = some pub) :
      Effect z b (.publish id bs)
        (b.call (.write b.session pub.znReskey bs (z.write b.calls b.session pub.znReskey bs)),
          z.write b.calls b.session pub.znReskey bs)

/-- **A step is one of them**, so an invariant of the broker is a case for each. -/
theorem step_effect (op : BrokerOp κ) : Effect z b op (b.step z op) := by
  cases op with
  | connect clientId =>
    rcases connect_spec (z := z) (b := b) clientId with ⟨hsession, h⟩ | ⟨hsession, h⟩
    · rw [step, h]
      exact .connected clientId hsession
    · rw [step, h]
      exact .opened clientId hsession
  | disconnect => exact .disconnected
  | subscriber id pattern callback =>
    rcases subscriber_spec (z := z) (b := b) id pattern callback with
      ⟨hid, h⟩ | ⟨hid, zsub, hsub, h⟩
    · rw [step, h]
      exact .subscribed id pattern callback hid
    · rw [step, h]
      cases zsub with
      | none => exact .subscriberRefused id pattern callback hid hsub.symm
      | some sub => exact .subscriberDeclared id pattern callback sub hid hsub.symm
  | unSubscribe id =>
    rw [step, unSubscribe]
    cases hid : b.subscribers.lookup id with
    | none => exact .notSubscribed id hid
    | some sub => exact .unSubscribed id sub hid
  | publisher id key =>
    rcases publisher_spec (z := z) (b := b) id key with ⟨hid, h⟩ | ⟨hid, rid, pub, hrid, hpub, h⟩
    · rw [step, h]
      exact .published id key hid
    · rw [step, h]
      exact .publisherEntered id key rid pub hid hrid hpub
  | publish id bs =>
    rcases publish_spec (z := z) (b := b) id bs with ⟨hid, h⟩ | ⟨pub, hid, h⟩
    · rw [step, h]
      exact .unknown id bs hid
    · rw [step, h]
      exact .written id bs pub hid

theorem step_calls (op : BrokerOp κ) : b.calls <+: (b.step z op).1.calls := by
  have heffect := step_effect (z := z) (b := b) op
  generalize b.step z op = r at heffect ⊢
  cases heffect with
  | connected | subscribed | notSubscribed | published | unknown => exact List.prefix_rfl
  | disconnected =>
    rw [disconnect, List.append_assoc]
    exact List.prefix_append _ _
  | opened | subscriberRefused | subscriberDeclared | unSubscribed | publisherEntered | written =>
    exact List.prefix_append _ _

theorem run_calls (ops : List (BrokerOp κ)) : b.calls <+: (b.run z ops).calls := by
  induction ops generalizing b with
  | nil => exact List.prefix_rfl
  | cons op ops ih => exact (step_calls op).trans ih

end

end BrokerZenoh

end ZenohProxy
