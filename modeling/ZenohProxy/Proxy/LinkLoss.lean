import ZenohProxy.Proxy.Declarations
import ZenohProxy.Proxy.Session
import ZenohProxy.Serial.Session

/-!
# Losing the serial link

`main` calls `disconnect` of the broker when `connected` of the serial session becomes false.
The session answers an error of the port with a `disconnect` of its own, which closes the port
and assigns nothing, or ends the process when the port cannot be closed. So the registrations of
the client stay, and they are gone after an error only where there were none:
`link_loss_releases_iff`.
-/

namespace ZenohProxy

open BrokerZenoh

/-- `main` of `proxy.cpp` between the serial port and the broker. -/
structure Gateway (T : TinyCbor) where
  serial : SerialSession
  main : ProxyMain T
  /-- A `close` has failed, and the process with it. -/
  ended : Bool

/-- What the thread of `main` is called for: data or an error of the port. The answers of
`read`, the readings of the clock and the answer of `close` come with it. -/
inductive PortEvent where
  | data (reads : List ReadResult) (millis : Nat → UInt64)
  | error (close : Option Errno)

namespace Gateway

variable {T : TinyCbor}

/-- What `main` has attached to the sources of the session, with the calls of the broker. -/
def onOutput (millis : Nat → UInt64) (g : Gateway T) :
    SessionOutput → Gateway T × List (BrokerOp Unit)
  | .incoming bs =>
    let (main, events) := g.main.onChunk ⟨bs.mapIdx fun i b => (b, millis i), millis bs.length⟩
    ({ g with main }, brokerOps events)
  | .connected isConnected => (g, if !isConnected then [.disconnect] else [])
  | .deleteInvoker _ => (g, [])

def onPort (g : Gateway T) (event : PortEvent) : Gateway T × List (BrokerOp Unit) :=
  if g.ended then (g, [])
  else
    match event with
    | .data reads millis =>
      match g.serial.invoke reads with
      -- still reading
      | none => (g, [])
      | some (serial, outs, _) => Mealy.run (onOutput millis) { g with serial } outs
    | .error close =>
      match g.serial.onError close with
      | none => ({ g with ended := true }, [])
      | some (serial, outs) => Mealy.run (onOutput fun _ => 0) { g with serial } outs

/-- The calls of the broker for some events of the port. -/
def ops (g : Gateway T) (events : List PortEvent) : List (BrokerOp Unit) :=
  (Mealy.run onPort g events).2

theorem onPort_error (g : Gateway T) (close : Option Errno) :
    (g.onPort (.error close)).2 = [] := by
  rw [onPort]
  split
  · rfl
  · by_cases hfails : g.serial.serialPort.fd = -1 ∨ close.isSome
    · simp [SerialSession.onError, SerialSession.disconnect, Serial.disconnect, hfails]
    -- what the session puts out is of no concern to the broker
    · simp only [SerialSession.onError, SerialSession.disconnect, Serial.disconnect, hfails]
      rfl

theorem ops_error (g : Gateway T) (events : List PortEvent) (close : Option Errno) :
    g.ops (events ++ [.error close]) = g.ops events := by
  rw [ops, Mealy.run_append, Mealy.run_singleton]
  exact (congrArg (_ ++ ·) (onPort_error _ close)).trans (List.append_nil _)

theorem unSubscribe_notMem_ops (g : Gateway T) (events : List PortEvent) (id : Int) :
    .unSubscribe id ∉ g.ops events := by
  have happend : ∀ ops ops' : List (BrokerOp Unit), .unSubscribe id ∉ ops →
      .unSubscribe id ∉ ops' → .unSubscribe id ∉ ops ++ ops' := by
    intro ops ops' h h'
    rw [List.mem_append, not_or]
    exact ⟨h, h'⟩
  have houtput (millis : Nat → UInt64) (g : Gateway T) (out : SessionOutput) :
      .unSubscribe id ∉ (g.onOutput millis out).2 := by
    cases out with
    | incoming bs => exact Proxy.unSubscribe_notMem_onFrames _ _ id
    | connected isConnected => cases isConnected <;> simp [onOutput]
    | deleteInvoker fd => exact List.not_mem_nil
  have houtputs (millis : Nat → UInt64) (g : Gateway T) (outs : List SessionOutput) :
      .unSubscribe id ∉ (Mealy.run (onOutput millis) g outs).2 :=
    (Mealy.run_puts (P := fun _ => True) List.not_mem_nil happend
      (fun g out _ => ⟨trivial, houtput millis g out⟩) trivial outs).2
  have hport (g : Gateway T) (event : PortEvent) : .unSubscribe id ∉ (g.onPort event).2 := by
    cases event with
    | error close =>
      rw [onPort_error]
      exact List.not_mem_nil
    | data reads millis =>
      rw [onPort]
      split
      · exact List.not_mem_nil
      · split
        · exact List.not_mem_nil
        · exact houtputs millis _ _
  exact (Mealy.run_puts (P := fun _ => True) List.not_mem_nil happend
    (fun g event _ => ⟨trivial, hport g event⟩) trivial events).2

end Gateway

/-! ## Registrations that were accepted -/

namespace BrokerZenoh

/-- A registration since the last `disconnect` returned 0. -/
def Registered (z : Zenoh Unit) (ops : List (BrokerOp Unit)) : Prop :=
  ∃ before op after, ops = before ++ op :: after ∧ op.isRegistration = true ∧
    ((new.run z before).step z op).2 = 0 ∧ ∀ op' ∈ after, op'.isDisconnect = false

/-- Nothing of the client is left, here or with zenoh. -/
structure Released (b : BrokerZenoh Unit) : Prop where
  subscribers : b.subscribers = ∅
  publishers : b.publishers = ∅
  liveSubscribers : liveSubscribers b.calls = 0
  livePublishers : livePublishers b.calls = 0

section

variable {z : Zenoh Unit} {b : BrokerZenoh Unit}

theorem registered_concat (ops : List (BrokerOp Unit)) (op : BrokerOp Unit) :
    Registered z (ops ++ [op]) ↔
      (op.isRegistration = true ∧ ((new.run z ops).step z op).2 = 0) ∨
        (op.isDisconnect = false ∧ Registered z ops) := by
  constructor
  · rintro ⟨before, op', after, hsplit, hreg, hrc, hafter⟩
    rcases List.eq_nil_or_concat after with rfl | ⟨after, last, rfl⟩
    · obtain ⟨rfl, hlast⟩ := List.append_inj' hsplit rfl
      obtain rfl := List.singleton_inj.mp hlast
      exact .inl ⟨hreg, hrc⟩
    · rw [List.concat_eq_append, ← List.cons_append, ← List.append_assoc] at hsplit
      obtain ⟨rfl, hlast⟩ := List.append_inj' hsplit rfl
      obtain rfl := List.singleton_inj.mp hlast
      exact .inr ⟨hafter op (by simp),
        before, op', after, rfl, hreg, hrc, fun op'' h => hafter op'' (by simp [h])⟩
  · rintro (⟨hreg, hrc⟩ | ⟨hop, before, op', after, rfl, hreg, hrc, hafter⟩)
    · exact ⟨ops, op, [], rfl, hreg, hrc, by simp⟩
    · refine ⟨before, op', after ++ [op], by simp, hreg, hrc, fun op'' h => ?_⟩
      rcases List.mem_append.mp h with h | h
      · exact hafter op'' h
      · rw [List.mem_singleton.mp h]
        exact hop

theorem insert_ne_empty {β : Int → Type} {id : Int} {x : β id} {t : AList β} :
    t.insert id x ≠ ∅ := by
  intro h
  have hlookup := AList.lookup_insert t (a := id) (b := x)
  rw [h] at hlookup
  cases hlookup

theorem ne_empty_of_lookup {β : Int → Type} {id : Int} {t : AList β}
    (h : t.lookup id ≠ none) : t ≠ ∅ := by
  rintro rfl
  exact h rfl

/-- A registration that returns 0 leaves an entry, and only `disconnect` takes entries away. -/
theorem tables_step (op : BrokerOp Unit) :
    ((b.step z op).1.subscribers = ∅ ∧ (b.step z op).1.publishers = ∅) ↔
      ¬ ((op.isRegistration = true ∧ (b.step z op).2 = 0) ∨
        (op.isDisconnect = false ∧ ¬ (b.subscribers = ∅ ∧ b.publishers = ∅))) := by
  have heffect := step_effect (z := z) (b := b) op
  generalize b.step z op = r at heffect ⊢
  cases heffect with
  | connected | opened | notSubscribed | unSubscribed | unknown | written =>
    simp [BrokerOp.isRegistration, BrokerOp.isDisconnect]
  -- refused: the tables are as they were
  | subscriberRefused => simp [BrokerOp.isRegistration, BrokerOp.isDisconnect]
  | disconnected =>
    exact iff_of_true ⟨rfl, rfl⟩ (by simp [BrokerOp.isRegistration, BrokerOp.isDisconnect])
  | subscribed id pattern callback hid =>
    exact iff_of_false (fun h => ne_empty_of_lookup hid h.1) fun h => h (.inl ⟨rfl, rfl⟩)
  | subscriberDeclared =>
    exact iff_of_false (fun h => insert_ne_empty h.1) fun h => h (.inl ⟨rfl, rfl⟩)
  | published id key hid =>
    exact iff_of_false (fun h => ne_empty_of_lookup hid h.2) fun h => h (.inl ⟨rfl, rfl⟩)
  | publisherEntered =>
    exact iff_of_false (fun h => insert_ne_empty h.2) fun h => h (.inl ⟨rfl, rfl⟩)

theorem tables_run (ops : List (BrokerOp Unit)) :
    ((new.run z ops).subscribers = ∅ ∧ (new.run z ops).publishers = ∅) ↔ ¬ Registered z ops := by
  induction ops using List.reverseRecOn with
  | nil => exact iff_of_true ⟨rfl, rfl⟩ (by rintro ⟨before, op, after, h, -⟩; simp at h)
  | append_singleton ops op ih =>
    rw [run_append, run_cons, run_nil, tables_step, registered_concat, ih, not_not]

/-- With empty tables nothing is left with zenoh either. -/
theorem released_iff {ops : List (BrokerOp Unit)} (hops : ∀ id, .unSubscribe id ∉ ops) :
    Released (new.run z ops) ↔ ¬ Registered z ops := by
  rw [← tables_run]
  refine ⟨fun h => ⟨h.subscribers, h.publishers⟩, fun ⟨hsubs, hpubs⟩ => ?_⟩
  have hdeclared : (new.run z ops).Declared := by
    refine declared_new.run ops fun before id after hsplit => ?_
    exact absurd (hsplit ▸ List.mem_append_right _ List.mem_cons_self) (hops id)
  refine ⟨hsubs, hpubs, ?_, ?_⟩
  · rw [hdeclared.subscribers, subHandles, hsubs]
    rfl
  · rw [hdeclared.publishers, pubHandles, hpubs]
    rfl

end

end BrokerZenoh

/-- **When losing the link releases the registrations.** For any events of the port and
whatever zenoh answers: at every error all is released, in the tables and with zenoh, exactly
when at none of them a registration since the last `disconnect` had been accepted. -/
theorem link_loss_releases_iff {T : TinyCbor} (g : Gateway T) (z : Zenoh Unit)
    (events : List PortEvent) :
    (∀ before close after, events = before ++ .error close :: after →
      Released (new.run z (g.ops (before ++ [.error close])))) ↔
    ∀ before close after, events = before ++ .error close :: after →
      ¬ Registered z (g.ops before) := by
  refine forall_congr' fun before => forall_congr' fun close => forall_congr' fun after =>
    imp_congr_right fun _ => ?_
  rw [Gateway.ops_error]
  exact released_iff (g.unSubscribe_notMem_ops before)

/-- The client connects and registers the publisher 1. -/
def publisherRegistered : List PortEvent :=
  [.data [.ok (0x7E :: [Cbor.encodeArray (MsgConnect.elements ⟨str "c"⟩),
      Cbor.encodeArray (MsgPublisher.elements ⟨1, str "a"⟩)].flatMap pppFrame), .ok []] fun _ => 1]

/-- The proxy at its start, connected to the port. -/
def Gateway.start (T : TinyCbor) : Gateway T := ⟨⟨⟨3, true⟩, []⟩, ⟨⟨[], [], 0⟩, .start T⟩, false⟩

theorem publisherRegistered_ops :
    (Gateway.start lenient).ops publisherRegistered
      = [.connect (str "c"), .publisher 1 (str "a")] := by
  have hT := TinyCbor.reference_documented (.noError, .invalid)
  have hframes : emitted (FrameExtractor.handleRxd ⟨[], [], 0⟩
      ⟨(0x7E :: [Cbor.encodeArray (MsgConnect.elements ⟨str "c"⟩),
        Cbor.encodeArray (MsgPublisher.elements ⟨1, str "a"⟩)].flatMap pppFrame).mapIdx
          fun i b => (b, 1), 1⟩).2
      = [Cbor.encodeArray (MsgConnect.elements ⟨str "c"⟩),
        Cbor.encodeArray (MsgPublisher.elements ⟨1, str "a"⟩)] := by
    decide
  have hmeans : ∀ m ∈ [(Cbor.encodeArray (MsgConnect.elements ⟨str "c"⟩), Handler.connect,
      BrokerOp.connect (str "c")), (Cbor.encodeArray (MsgPublisher.elements ⟨1, str "a"⟩),
        .publisher, .publisher 1 (str "a"))], Proxy.Means lenient m.1 m.2.1 m.2.2 := by
    rw [List.forall_mem_cons, List.forall_mem_singleton]
    exact ⟨Proxy.means_connect hT (by decide), Proxy.means_publisher hT (by decide) (by decide)⟩
  have hops := Proxy.brokerOps_onFrames_means hT (Proxy.start_ready lenient) hmeans
  simp only [List.map_cons, List.map_nil] at hops
  rw [← hframes] at hops
  refine Eq.trans ?_ hops
  -- the event publishes one value
  exact (List.append_nil _).trans (List.append_nil _)

/-- Then the port fails: the publisher is in the table, and zenoh still has it. -/
theorem registrations_outlive_link :
    ¬ ∀ before close after, publisherRegistered ++ [.error none] = before ++ .error close :: after →
      Released (new.run Zenoh.succeeding
        ((Gateway.start lenient).ops (before ++ [.error close]))) := by
  intro h
  have hlive := (h publisherRegistered none [] rfl).livePublishers
  rw [Gateway.ops_error, publisherRegistered_ops] at hlive
  revert hlive
  decide

end ZenohProxy
