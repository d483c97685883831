import ZenohProxy.Proxy.Handlers
import ZenohProxy.Proxy.Registrations

/-!
# The session of the proxy

The broker hands `_zenoh_session` to zenoh without a look at it, and the handlers do not
look at what `connect` answers. As long as no session is open the tables are empty, so a
registration is what makes the first call on the null session: `no_null_session_iff`. The
reply to a connect is sent whether there is a session or not: `reply_open_iff`.
-/

namespace ZenohProxy

variable {κ : Type}

/-- A call that takes a session, made on the null session. -/
def ZnCall.onNull : ZnCall κ → Bool
  | .declareResource session _ _ => session.isNone
  | .declareSubscriber session _ _ _ _ => session.isNone
  | .declarePublisher session _ _ => session.isNone
  | .write session _ _ _ => session.isNone
  | _ => false

def BrokerOp.isRegistration : BrokerOp κ → Bool
  | .subscriber .. => true
  | .publisher .. => true
  | _ => false

namespace BrokerZenoh

/-- No call was made on the null session, and while there is no session the tables are
empty. -/
structure Guarded (b : BrokerZenoh κ) : Prop where
  calls : ∀ c ∈ b.calls, c.onNull = false
  tables : b.session = none → b.subscribers = ∅ ∧ b.publishers = ∅

theorem guarded_new : (new : BrokerZenoh κ).Guarded :=
  ⟨fun _ hc => absurd hc List.not_mem_nil, fun _ => ⟨rfl, rfl⟩⟩

section

variable {z : Zenoh κ} {b b' : BrokerZenoh κ}

theorem Guarded.call (h : b.Guarded) {c : ZnCall κ} (hc : c.onNull = false) :
    (b.call c).Guarded where
  calls c' hc' := by
    rcases List.mem_append.mp hc' with hold | hnew
    · exact h.calls c' hold
    · rw [List.mem_singleton.mp hnew]
      exact hc
  tables := h.tables

/-- **A step keeps the guard** if no registration meets the null session. -/
theorem Guarded.step (h : b.Guarded) (op : BrokerOp κ)
    (hop : op.isRegistration = true → b.session ≠ none) : (b.step z op).1.Guarded := by
  have hopen (hreg : op.isRegistration = true) : b.session.isNone = false := by
    obtain ⟨s, hs⟩ := Option.ne_none_iff_exists'.mp (hop hreg)
    rw [hs]
    rfl
  have heffect := step_effect (z := z) (b := b) op
  generalize b.step z op = r at heffect ⊢
  cases heffect with
  | connected | subscribed | notSubscribed | published | unknown => exact h
  -- opening a session is no call on one
  | opened clientId hnull => exact ⟨(h.call rfl).calls, fun _ => h.tables hnull⟩
  | disconnected =>
    refine ⟨fun c hc => ?_, fun _ => ⟨rfl, rfl⟩⟩
    simp only [disconnect, List.mem_append, List.mem_map] at hc
    rcases hc with (hc | ⟨e, -, rfl⟩) | ⟨e, -, rfl⟩
    · exact h.calls c hc
    · rfl
    · rfl
  | subscriberRefused =>
    apply h.call
    exact hopen rfl
  | subscriberDeclared id pattern callback sub =>
    have hcall := h.call (c := .declareSubscriber b.session (.rname (cStr pattern)) id callback
      (some sub)) (hopen rfl)
    -- with a session open, the tables may hold what they like
    exact ⟨hcall.calls, fun hnull => absurd hnull (hop rfl)⟩
  | unSubscribed => exact h.call rfl
  | publisherEntered id key rid pub =>
    refine ⟨fun c hc => ?_, fun hnull => absurd hnull (hop rfl)⟩
    rcases List.mem_append.mp hc with hold | hnew
    · exact h.calls c hold
    · simp only [List.mem_cons, List.not_mem_nil, or_false] at hnew
      rcases hnew with rfl | rfl
      · exact hopen rfl
      · exact hopen rfl
  | written id bs pub hpub =>
    apply h.call
    -- the table is not empty, so there is a session
    cases hs : b.session with
    | some s => rfl
    | none =>
      rw [(h.tables hs).2] at hpub
      cases hpub

/-- A registration that meets the null session calls zenoh on it. -/
theorem Guarded.step_null (h : b.Guarded) {op : BrokerOp κ} (hop : op.isRegistration = true)
    (hnull : b.session = none) : ∃ c ∈ (b.step z op).1.calls, c.onNull = true := by
  cases op with
  | subscriber id pattern callback =>
    rcases subscriber_spec (z := z) (b := b) id pattern callback with
      ⟨hid, -⟩ | ⟨-, zsub, -, heq⟩
    · rw [(h.tables hnull).1] at hid
      exact absurd rfl hid
    · refine ⟨.declareSubscriber b.session (.rname (cStr pattern)) id callback zsub, ?_, ?_⟩
      · rw [BrokerZenoh.step, heq]
        split <;> simp
      · rw [hnull]
        rfl
  | publisher id key =>
    rcases publisher_spec (z := z) (b := b) id key with ⟨hid, -⟩ | ⟨-, rid, pub, -, -, heq⟩
    · rw [(h.tables hnull).2] at hid
      exact absurd rfl hid
    · refine ⟨.declareResource b.session (.rname (cStr key)) rid, ?_, ?_⟩
      · rw [BrokerZenoh.step, heq]
        simp
      · rw [hnull]
        rfl
  | _ => cases hop

/-- Every registration among the calls meets an open session. -/
def RegistersOpen (z : Zenoh κ) (b : BrokerZenoh κ) (ops : List (BrokerOp κ)) : Prop :=
  ∀ before op after, ops = before ++ op :: after → op.isRegistration = true →
    (b.run z before).session ≠ none

/-- **Whole runs**: no call is made on the null session exactly when every registration meets
an open one. Induction on the calls; the first registration that does not is what fails. -/
theorem Guarded.run_iff (h : b.Guarded) (ops : List (BrokerOp κ)) :
    (∀ c ∈ (b.run z ops).calls, c.onNull = false) ↔ RegistersOpen z b ops := by
  induction ops generalizing b with
  | nil =>
    refine ⟨fun _ before op after hsplit => ?_, fun _ => h.calls⟩
    simp at hsplit
  | cons op ops ih =>
    rw [run_cons]
    by_cases hop : op.isRegistration = true → b.session ≠ none
    · rw [ih (h.step op hop)]
      constructor
      · intro hopen before op' after hsplit hreg
        cases before with
        | nil =>
          cases hsplit
          exact hop hreg
        | cons first before =>
          cases hsplit
          exact hopen before op' after rfl hreg
      · intro hopen before op' after hsplit hreg
        exact hopen (op :: before) op' after (by rw [hsplit]; rfl) hreg
    -- the first call breaks the guard, and calls are never taken back
    · have hnull : op.isRegistration = true ∧ b.session = none := by
        simpa using hop
      refine iff_of_false (fun hcalls => ?_)
        (fun hopen => hopen [] op ops rfl hnull.1 hnull.2)
      obtain ⟨c, hc, hbad⟩ := h.step_null (z := z) hnull.1 hnull.2
      rw [hcalls c ((run_calls ops).subset hc)] at hbad
      cases hbad

end

end BrokerZenoh

open BrokerZenoh

/-- **When zenoh is never called on a missing session.** For any frames, whatever zenoh
answers to `zn_open`: exactly when each registration that the handlers pass on finds an open
session. -/
theorem no_null_session_iff (T : TinyCbor) (p : Proxy T) (z : Zenoh Unit)
    (frames : List Bytes) :
    (∀ c ∈ (new.run z (brokerOps (p.onFrames frames).2)).calls, c.onNull = false) ↔
      RegistersOpen z new (brokerOps (p.onFrames frames).2) :=
  guarded_new.run_iff _

/-- The first frame registers a publisher: its resource is declared on the null session. -/
theorem registration_on_null_session :
    ¬ ∀ c ∈ (new.run Zenoh.succeeding (brokerOps ((Proxy.start lenient).onFrames
      [Cbor.encodeArray (MsgPublisher.elements ⟨1, str "a"⟩)]).2)).calls, c.onNull = false := by
  have hT := TinyCbor.reference_documented (.noError, .invalid)
  have hmeans : Proxy.Means lenient (Cbor.encodeArray (MsgPublisher.elements ⟨1, str "a"⟩))
      .publisher (.publisher 1 (str "a")) := Proxy.means_publisher hT (by decide) (by decide)
  have hevents : ((Proxy.start lenient).onFrames
      [Cbor.encodeArray (MsgPublisher.elements ⟨1, str "a"⟩)]).2
      = [.called .publisher (some (.publisher 1 (str "a")))] :=
    (congrArg Prod.snd (Mealy.run_singleton _ _)).trans
      (Proxy.onFrame_means hT (Proxy.start_ready lenient) hmeans)
  rw [hevents]
  intro hcalls
  have hnull := hcalls (.declareResource none (.rname (str "a")) (resourceNumber (str "a")))
    (List.mem_cons_self)
  cases hnull

/-! ## The reply to a connect -/

theorem BrokerZenoh.connect_zero {z : Zenoh κ} {b : BrokerZenoh κ} (clientId : Str) :
    (b.connect z clientId).2 = 0 ↔ b.session ≠ none ∨ z.open_ b.calls ≠ none := by
  unfold connect
  by_cases hnull : b.session = none
  · by_cases hopen : z.open_ b.calls = none <;> simp [hnull, hopen]
  · simp [hnull]

theorem BrokerZenoh.connect_session {z : Zenoh κ} {b : BrokerZenoh κ} (clientId : Str) :
    (b.connect z clientId).1.session ≠ none ↔ (b.connect z clientId).2 = 0 := by
  rw [connect]
  by_cases hnull : b.session = none
  · by_cases hopen : z.open_ b.calls = none <;> simp [hnull, hopen]
  · simp [hnull]

/-- The events of the handlers: a reply comes after each connect and nowhere else. -/
inductive Answered : List ProxyEvent → Prop where
  | nil : Answered []
  | failed {es : List ProxyEvent} (h : Handler) (hes : Answered es) :
      Answered (.called h none :: es)
  | call {es : List ProxyEvent} (h : Handler) {op : BrokerOp Unit}
      (hop : ∀ clientId, op ≠ .connect clientId) (hes : Answered es) :
      Answered (.called h (some op) :: es)
  | connect {es : List ProxyEvent} (clientId : Str) (reply : Option Bytes) (hes : Answered es) :
      Answered (.called .connect (some (.connect clientId)) :: .toSerial reply :: es)

namespace Answered

theorem append {es es' : List ProxyEvent} (h : Answered es) (h' : Answered es') :
    Answered (es ++ es') := by
  induction h with
  | nil => exact h'
  | failed h _ ih => exact .failed h ih
  | call h hop _ ih => exact .call h hop ih
  | connect clientId reply _ ih => exact .connect clientId reply ih

/-- Before a reply there is its connect. -/
theorem of_reply {es : List ProxyEvent} (h : Answered es) {before after : List ProxyEvent}
    {reply : Option Bytes} (hsplit : es = before ++ .toSerial reply :: after) :
    ∃ before' clientId, before = before' ++ [.called .connect (some (.connect clientId))] := by
  induction h generalizing before with
  | nil => simp at hsplit
  | failed h _ ih =>
    cases before with
    | nil => cases hsplit
    | cons e before =>
      obtain ⟨before', clientId, rfl⟩ := ih (List.cons.inj hsplit).2
      exact ⟨e :: before', clientId, rfl⟩
  | call h _ _ ih =>
    cases before with
    | nil => cases hsplit
    | cons e before =>
      obtain ⟨before', clientId, rfl⟩ := ih (List.cons.inj hsplit).2
      exact ⟨e :: before', clientId, rfl⟩
  | connect clientId reply' _ ih =>
    cases before with
    | nil => cases hsplit
    | cons e before =>
      cases before with
      -- it is the reply of this connect, or of a later one
      | nil =>
        obtain rfl := (List.cons.inj hsplit).1
        exact ⟨[], clientId, rfl⟩
      | cons e' before =>
        obtain ⟨before', clientId', rfl⟩ := ih (List.cons.inj (List.cons.inj hsplit).2).2
        exact ⟨e :: e' :: before', clientId', rfl⟩

/-- After a connect there is its reply. -/
theorem of_connect {es : List ProxyEvent} (h : Answered es) {before after : List (BrokerOp Unit)}
    {clientId : Str} (hsplit : brokerOps es = before ++ .connect clientId :: after) :
    ∃ es₁ reply es₂, es = es₁ ++ .called .connect (some (.connect clientId)) ::
      .toSerial reply :: es₂ ∧ brokerOps es₁ = before := by
  induction h generalizing before with
  | nil => simp [brokerOps] at hsplit
  | failed h _ ih =>
    obtain ⟨es₁, reply, es₂, rfl, hbefore⟩ := ih hsplit
    exact ⟨.called h none :: es₁, reply, es₂, rfl, hbefore⟩
  | call h hop _ ih =>
    cases before with
    | nil => exact absurd (List.cons.inj hsplit).1 (hop clientId)
    | cons op before =>
      obtain ⟨rfl, hrest⟩ := List.cons.inj hsplit
      obtain ⟨es₁, reply, es₂, rfl, rfl⟩ := ih hrest
      exact ⟨_ :: es₁, reply, es₂, rfl, rfl⟩
  | connect clientId' reply' _ ih =>
    cases before with
    | nil =>
      obtain ⟨hop, -⟩ := List.cons.inj hsplit
      obtain rfl := BrokerOp.connect.inj hop
      exact ⟨[], reply', _, rfl, rfl⟩
    | cons op before =>
      obtain ⟨rfl, hrest⟩ := List.cons.inj hsplit
      obtain ⟨es₁, reply, es₂, rfl, rfl⟩ := ih hrest
      exact ⟨_ :: _ :: es₁, reply, es₂, rfl, rfl⟩

end Answered

theorem Proxy.handle_answered {T : TinyCbor} (frame : Bytes) (p : Proxy T) (h : Handler) :
    Answered (handle frame p h).2 := by
  rcases handle_cases frame p h with heq | heq | ⟨local_, reply, d, heq⟩
  · rw [heq]
    exact .nil
  · rw [heq]
    exact .failed h .nil
  · rw [heq]
    cases h with
    | connect => exact .connect _ reply .nil
    | _ => exact .call _ (fun clientId => by simp [Handler.decode]) .nil

theorem Proxy.onFrames_answered {T : TinyCbor} (p : Proxy T) (frames : List Bytes) :
    Answered (p.onFrames frames).2 := by
  have hframe (p : Proxy T) (frame : Bytes) : Answered (p.onFrame frame).2 :=
    (Mealy.run_puts (P := fun _ => True) .nil (fun _ _ => Answered.append)
      (fun p h _ => ⟨trivial, handle_answered frame p h⟩) trivial Handler.all).2
  exact (Mealy.run_puts (P := fun _ => True) .nil (fun _ _ => Answered.append)
    (fun p frame _ => ⟨trivial, hframe p frame⟩) trivial frames).2

/-- Every reply comes right after a call of `connect` that returned 0, with a session open. -/
def RepliesOpen (z : Zenoh Unit) (events : List ProxyEvent) : Prop :=
  ∀ before reply after, events = before ++ .toSerial reply :: after →
    ∃ before' clientId, before = before' ++ [.called .connect (some (.connect clientId))] ∧
      ((new.run z (brokerOps before')).connect z clientId).2 = 0 ∧
      (new.run z (brokerOps before)).session ≠ none

/-- Every connect finds a session, or `zn_open` gives it one. -/
def ConnectsOpen (z : Zenoh Unit) (ops : List (BrokerOp Unit)) : Prop :=
  ∀ before clientId after, ops = before ++ .connect clientId :: after →
    (new.run z before).session ≠ none ∨ z.open_ (new.run z before).calls ≠ none

/-- **When a connect reply means an open session.** For any frames and whatever zenoh
answers: exactly when no connect is handled without a session for which `zn_open` fails. -/
theorem reply_open_iff {T : TinyCbor} (p : Proxy T) (z : Zenoh Unit) (frames : List Bytes) :
    RepliesOpen z (p.onFrames frames).2 ↔ ConnectsOpen z (brokerOps (p.onFrames frames).2) := by
  have hanswered := p.onFrames_answered frames
  constructor
  · intro h before clientId after hsplit
    obtain ⟨es₁, reply, es₂, hes, rfl⟩ := hanswered.of_connect hsplit
    rw [List.append_cons] at hes
    obtain ⟨before', clientId', hbefore, hzero, -⟩ := h _ reply es₂ hes
    obtain ⟨rfl, hcall⟩ := List.append_inj' hbefore rfl
    exact (connect_zero clientId').mp hzero
  · intro h before reply after hsplit
    obtain ⟨before', clientId, rfl⟩ := hanswered.of_reply hsplit
    have hops : brokerOps (p.onFrames frames).2
        = brokerOps before' ++ .connect clientId :: brokerOps after := by
      rw [hsplit, brokerOps_append, brokerOps_append, List.append_assoc]
      rfl
    have hzero := (connect_zero clientId).mpr (h _ clientId _ hops)
    refine ⟨before', clientId, rfl, hzero, ?_⟩
    rw [brokerOps_append, run_append]
    exact (connect_session clientId).mpr hzero

/-- A zenoh that cannot open a session. -/
def Zenoh.unreachable : Zenoh κ := { succeeding with open_ _ := none }

/-- `zn_open` fails for the first connect, which is answered all the same. -/
theorem reply_without_session :
    ¬ RepliesOpen Zenoh.unreachable ((Proxy.start lenient).onFrames
      [Cbor.encodeArray (MsgConnect.elements ⟨str "c"⟩)]).2 := by
  have hT := TinyCbor.reference_documented (.noError, .invalid)
  have hmeans : Proxy.Means lenient (Cbor.encodeArray (MsgConnect.elements ⟨str "c"⟩))
      .connect (.connect (str "c")) := Proxy.means_connect hT (by decide)
  have hevents : ((Proxy.start lenient).onFrames
      [Cbor.encodeArray (MsgConnect.elements ⟨str "c"⟩)]).2
      = Proxy.eventsOf .connect (.connect (str "c")) :=
    (congrArg Prod.snd (Mealy.run_singleton _ _)).trans
      (Proxy.onFrame_means hT (Proxy.start_ready lenient) hmeans)
  rw [hevents]
  intro h
  obtain ⟨before', clientId, hbefore, -, hopen⟩ :=
    h [.called .connect (some (.connect (str "c")))] _ [] rfl
  exact hopen rfl

end ZenohProxy
