import ZenohProxy.Lib.Replay
import ZenohProxy.Proxy.Handlers
import ZenohProxy.Proxy.Registrations

/-!
# Registering again

A micro-controller announces itself and registers all it has each time it reconnects. A
connect finds the session open and a registration finds its identifier in the table, so as
long as the proxy is not told to disconnect, copies of these messages change nothing:
`reregistration_idempotent`.
-/

namespace ZenohProxy

variable {κ : Type}

/-- Connects and registrations. -/
def BrokerOp.isRepeatable : BrokerOp κ → Bool
  | .connect _ => true
  | .subscriber .. => true
  | .publisher .. => true
  | _ => false

namespace BrokerZenoh

/-- What a call establishes is there. -/
def Settled (b : BrokerZenoh κ) : BrokerOp κ → Prop
  | .connect _ => b.session ≠ none
  | .subscriber id _ _ => b.subscribers.lookup id ≠ none
  | .publisher id _ => b.publishers.lookup id ≠ none
  | _ => False

section

variable {z : Zenoh κ} {b : BrokerZenoh κ}

/-- A call whose effect is there changes nothing. -/
theorem Settled.same {op : BrokerOp κ} (h : b.Settled op) : (b.step z op).1 = b := by
  cases op with
  | connect clientId =>
    rcases connect_spec (z := z) (b := b) clientId with ⟨-, heq⟩ | ⟨hnull, -⟩
    · rw [step, heq]
    · exact absurd hnull h
  | subscriber id pattern callback =>
    rcases subscriber_spec (z := z) (b := b) id pattern callback with ⟨-, heq⟩ | ⟨hid, -⟩
    · rw [step, heq]
    · exact absurd hid h
  | publisher id key =>
    rcases publisher_spec (z := z) (b := b) id key with ⟨-, heq⟩ | ⟨hid, -⟩
    · rw [step, heq]
    · exact absurd hid h
  | disconnect => exact h.elim
  | unSubscribe id => exact h.elim
  | publish id bs => exact h.elim

theorem session_step (h : b.session ≠ none) (op : BrokerOp κ) :
    (b.step z op).1.session ≠ none := by
  have heffect := step_effect (z := z) (b := b) op
  generalize b.step z op = r at heffect ⊢
  cases heffect with
  | opened clientId hnull => exact absurd hnull h
  | _ => exact h

end

section

variable {z : Zenoh κ} (hopen : ∀ calls, z.open_ calls ≠ none)
  (hdeclare : ∀ calls session key, z.declareSubscriber calls session key ≠ none)
include hopen hdeclare

/-- A call settles itself. -/
theorem settled_step (b : BrokerZenoh κ) (op : BrokerOp κ) (hop : op.isRepeatable = true) :
    (b.step z op).1.Settled op := by
  cases op with
  | connect clientId =>
    rcases connect_spec (z := z) (b := b) clientId with ⟨hs, heq⟩ | ⟨-, heq⟩
    · rw [step, heq]
      exact hs
    · rw [step, heq]
      exact hopen b.calls
  | subscriber id pattern callback =>
    have hentry := subscribers_step (b := b) hdeclare (.subscriber id pattern callback) rfl id
    intro hnone
    rw [hnone, Option.map_none, eq_comm, Option.orElse_eq_none, subscriberOf, if_pos rfl] at hentry
    cases hentry.2
  | publisher id key =>
    have hentry := publishers_step (z := z) (b := b) (.publisher id key) rfl id
    intro hnone
    rw [hnone, Option.map_none, eq_comm, Option.orElse_eq_none, publisherOf, if_pos rfl] at hentry
    cases hentry.2
  | disconnect => cases hop
  | unSubscribe id => cases hop
  | publish id bs => cases hop

omit hopen in
/-- Another call leaves it settled, unless it is `disconnect`. -/
theorem Settled.step {b : BrokerZenoh κ} {op : BrokerOp κ} (h : b.Settled op) (op' : BrokerOp κ)
    (hop' : op'.isDisconnect = false) : (b.step z op').1.Settled op := by
  cases op with
  | connect clientId => exact session_step h op'
  | subscriber id pattern callback =>
    have hentry := subscribers_step (b := b) hdeclare op' hop' id
    intro hnone
    rw [hnone, Option.map_none, eq_comm, Option.orElse_eq_none, Option.map_eq_none_iff] at hentry
    exact h hentry.1
  | publisher id key =>
    have hentry := publishers_step (z := z) (b := b) op' hop' id
    intro hnone
    rw [hnone, Option.map_none, eq_comm, Option.orElse_eq_none, Option.map_eq_none_iff] at hentry
    exact h hentry.1
  | disconnect => exact h.elim
  | unSubscribe id => exact h.elim
  | publish id bs => exact h.elim

/-- **Copies of calls change nothing**, in the tables or in what zenoh is told. -/
theorem run_withCopies {seen ops ops' : List (BrokerOp κ)}
    (hcopies : Replay.WithCopies (fun op => op.isRepeatable = true)
      (fun op => op.isDisconnect = true) seen ops ops')
    {b : BrokerZenoh κ} (hseen : ∀ op ∈ seen, op.isRepeatable = true → b.Settled op) :
    b.run z ops' = b.run z ops :=
  Replay.foldl_withCopies (fun _ _ h => h.same) (settled_step hopen hdeclare)
    (fun _ _ op' h hop' => h.step hdeclare op' (by simpa using hop')) hcopies hseen

end

end BrokerZenoh

/-! ## Messages -/

/-- A frame that the proxy takes for a call of the broker. -/
structure Message (T : TinyCbor) where
  frame : Bytes
  handler : Handler
  op : BrokerOp Unit
  means : Proxy.Means T frame handler op

namespace Message

variable {T : TinyCbor}

section

variable (hT : T.Documented)
include hT

def connect (clientId : Str)
    (hlen : (Cbor.encodeArray (MsgConnect.elements ⟨clientId⟩)).length ≤ 1024) : Message T :=
  ⟨_, .connect, .connect (cStr clientId), Proxy.means_connect hT hlen⟩

def subscriber (id : Int) (topic : Str) (hid : IsInt32 id)
    (hlen : (Cbor.encodeArray (MsgSubscriber.elements ⟨id, topic⟩)).length ≤ 1024) : Message T :=
  ⟨_, .subscriber, .subscriber id (cStr topic) (), Proxy.means_subscriber hT hid hlen⟩

def publisher (id : Int) (topic : Str) (hid : IsInt32 id)
    (hlen : (Cbor.encodeArray (MsgPublisher.elements ⟨id, topic⟩)).length ≤ 1024) : Message T :=
  ⟨_, .publisher, .publisher id (cStr topic), Proxy.means_publisher hT hid hlen⟩

def disconnect : Message T := ⟨_, .disconnect, .disconnect, Proxy.means_disconnect hT⟩

end

/-- The messages that the micro-controller sends each time it reconnects. -/
def IsRegistration (m : Message T) : Prop :=
  m.handler = .connect ∨ m.handler = .subscriber ∨ m.handler = .publisher

theorem decoded (m : Message T) : ∃ local_, ∃ d : CborDeserializer T,
    m.op = (m.handler.decode local_ d).1 :=
  ⟨0, _, (m.means.decodes 0 (.new T 1024) rfl).1.symm⟩

theorem IsRegistration.op {m : Message T} (h : m.IsRegistration) : m.op.isRepeatable = true := by
  obtain ⟨local_, d, hop⟩ := m.decoded
  rw [hop]
  rcases h with h | h | h <;> rw [h] <;> rfl

theorem isDisconnect_op (m : Message T) :
    m.handler = .disconnect ↔ m.op.isDisconnect = true := by
  obtain ⟨local_, d, hop⟩ := m.decoded
  rw [hop]
  cases m.handler <;> simp [Handler.decode, BrokerOp.isDisconnect]

end Message

open BrokerZenoh

/-- **Registering again is idempotent.** With a zenoh that opens a session and declares what
it is asked to: the connects and registrations among the messages that the proxy handles may
come again at any later positions, as long as it is not told to disconnect in between. The
tables and the calls of zenoh are the same as without the copies. -/
theorem reregistration_idempotent {T : TinyCbor} (hT : T.Documented) {p : Proxy T} (hp : p.Ready)
    {z : Zenoh Unit} (hopen : ∀ calls, z.open_ calls ≠ none)
    (hdeclare : ∀ calls session key, z.declareSubscriber calls session key ≠ none)
    {ms ms' : List (Message T)}
    (hcopies : Replay.WithCopies Message.IsRegistration (fun m => m.handler = .disconnect)
      [] ms ms') :
    new.run z (brokerOps (p.onFrames (ms'.map Message.frame)).2)
      = new.run z (brokerOps (p.onFrames (ms.map Message.frame)).2) := by
  have hops (ms : List (Message T)) :
      brokerOps (p.onFrames (ms.map Message.frame)).2 = ms.map Message.op :=
    Proxy.brokerOps_onFrames_means hT hp fun m _ => m.means
  have hmap : Replay.WithCopies (fun op : BrokerOp Unit => op.isRepeatable = true)
      (fun op => op.isDisconnect = true) [] (ms.map Message.op) (ms'.map Message.op) :=
    hcopies.map (fun m hm => hm.op) Message.isDisconnect_op
  rw [hops, hops]
  exact run_withCopies hopen hdeclare hmap fun op hop => absurd hop List.not_mem_nil

/-- The client connects and subscribes, and again; it disconnects, and subscribes twice. -/
theorem reregistration_idempotent_twice :
    let hT := TinyCbor.reference_documented (.noError, .invalid)
    let connect : Message lenient := .connect hT (str "c") (by decide)
    let subscriber : Message lenient := .subscriber hT 1 (str "a") (by decide) (by decide)
    let disconnect : Message lenient := .disconnect hT
    new.run (Zenoh.succeeding : Zenoh Unit) (brokerOps ((Proxy.start lenient).onFrames
        ([connect, subscriber, connect, subscriber, disconnect, subscriber, subscriber].map
          Message.frame)).2)
      = new.run Zenoh.succeeding (brokerOps ((Proxy.start lenient).onFrames
        ([connect, subscriber, disconnect, subscriber].map Message.frame)).2) := by
  intro hT connect subscriber disconnect
  refine reregistration_idempotent hT (Proxy.start_ready lenient) (by simp [Zenoh.succeeding])
    (by simp [Zenoh.succeeding]) ?_
  have hconnect : ¬ connect.handler = .disconnect := by decide
  have hsubscriber : ¬ subscriber.handler = .disconnect := by decide
  refine .next hconnect (.next hsubscriber (.copy (by simp) (.inl rfl) (.copy (by simp) ?_ ?_)))
  · exact .inr (.inl rfl)
  · exact .finish rfl (.next hsubscriber (.copy (by simp) (.inr (.inl rfl)) (.nil _)))

end ZenohProxy
