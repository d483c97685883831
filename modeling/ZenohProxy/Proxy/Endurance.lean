import ZenohProxy.Proxy.Handlers

/-!
# What the proxy survives

The proxy makes two messages with its one serializer: the reply to a connect, which always
fits, and what it makes of a sample, which fits or not. So no byte on the line makes an
assertion fail or an answer other than the reply go out (`onFrames_answers`); only a sample
that does not fit stops the program (`proxy_endures_iff`).
-/

namespace ZenohProxy

open Cbor (encodeArray)

/-- The one message with which the proxy answers. -/
def connectReplyFrame : Bytes := encodeArray msgConnectReply.elements

namespace Proxy

variable {T : TinyCbor}

/-- The messages among the events, all made without a failing assertion. -/
structure Answers (p : Proxy T) (events : List ProxyEvent) (allowed : Bytes → Prop) : Prop where
  toCbor : p.toCbor.assertFailed = false
  made : ∀ msg, .toSerial msg ∈ events → ∃ frame, msg = some frame ∧ allowed frame

theorem Answers.called {p : Proxy T} {events : List ProxyEvent} {allowed : Bytes → Prop}
    (h : Answers p events allowed) {handler : Handler} {op : Option (BrokerOp Unit)} :
    Answers p (.called handler op :: events) allowed := by
  refine ⟨h.toCbor, fun msg hmsg => h.made msg ?_⟩
  rcases List.mem_cons.mp hmsg with hmsg | hmsg
  · cases hmsg
  · exact hmsg

section

variable (hT : T.Documented) {p : Proxy T} (hp : p.Ready)
include hT hp

theorem connectReply_answers (hassert : p.toCbor.assertFailed = false) :
    Answers p.connectReply.1 p.connectReply.2 (· = connectReplyFrame) := by
  refine ⟨?_, fun msg hmsg => ?_⟩
  · have hasserts := (MsgConnect.reflect_finished hT p.toCbor msgConnectReply).asserts
    rw [hassert, hp.toCbor] at hasserts
    exact hasserts.trans (by decide)
  · rw [connectReply_events hT hp] at hmsg
    cases List.mem_singleton.mp hmsg
    exact ⟨_, rfl, rfl⟩

theorem handle_answers (hassert : p.toCbor.assertFailed = false) (frame : Bytes) (h : Handler) :
    Answers (handle frame p h).1 (handle frame p h).2 (· = connectReplyFrame) := by
  have hready := hp.update (isFor_on (hp.filters h) frame)
  rw [handle]
  cases hout : ((p.filters h).on frame).2 with
  | none =>
    simp only [hout]
    exact ⟨hassert, by simp⟩
  | some frame' =>
    have hcapacity := (capacity_decode h (p.locals 0) (p.fromCbor.fromBytes frame')).trans
      hp.fromCbor
    simp only [hout]
    split
    · split
      -- only the handler of connect sends anything
      · refine .called ?_
        exact connectReply_answers hT ⟨hready.filters, hcapacity, hp.toCbor⟩ hassert
      · exact ⟨hassert, by simp⟩
    · exact ⟨hassert, by simp⟩

/-- **Whatever frames come in**, the reply is all that goes out, and it is made. -/
theorem onFrames_answers (hassert : p.toCbor.assertFailed = false) (frames : List Bytes) :
    (p.onFrames frames).1.Ready ∧
      Answers (p.onFrames frames).1 (p.onFrames frames).2 (· = connectReplyFrame) := by
  let sends (events : List ProxyEvent) : Prop :=
    ∀ msg, .toSerial msg ∈ events → ∃ frame, msg = some frame ∧ frame = connectReplyFrame
  have happend (es es' : List ProxyEvent) (hes : sends es) (hes' : sends es') :
      sends (es ++ es') :=
    fun msg hmsg => (List.mem_append.mp hmsg).elim (hes msg) (hes' msg)
  -- first over the handlers of a frame, then over the frames
  have hframe (p : Proxy T) (frame : Bytes)
      (h : p.Ready ∧ p.toCbor.assertFailed = false) :
      ((p.onFrame frame).1.Ready ∧ (p.onFrame frame).1.toCbor.assertFailed = false) ∧
        sends (p.onFrame frame).2 :=
    Mealy.run_puts (P := fun p : Proxy T => p.Ready ∧ p.toCbor.assertFailed = false)
      (Q := sends) (by simp [sends]) happend
      (fun p i h => by
        obtain ⟨hasserted, hmade⟩ := handle_answers hT h.1 h.2 frame i
        exact ⟨⟨handle_ready hT h.1 frame i, hasserted⟩, hmade⟩) h Handler.all
  obtain ⟨⟨hready, hasserted⟩, hmade⟩ :=
    Mealy.run_puts (P := fun p : Proxy T => p.Ready ∧ p.toCbor.assertFailed = false)
      (Q := sends) (by simp [sends]) happend hframe ⟨hp, hassert⟩ frames
  exact ⟨hready, hasserted, hmade⟩

/-- The callback of a subscription: the message is made if it fits, and else an assertion
fails. -/
theorem onSample_answers (hassert : p.toCbor.assertFailed = false) (id : Int) (data : Bytes) :
    (p.onSample id data).1.Ready ∧
      if (encodeArray (MsgPublish.elements ⟨id, data⟩)).length ≤ 1024 then
        Answers (p.onSample id data).1 (p.onSample id data).2
          (· = encodeArray (MsgPublish.elements ⟨id, data⟩))
      else (p.onSample id data).1.toCbor.assertFailed = true := by
  have hdone := MsgPublish.reflect_finished hT p.toCbor ⟨id, data⟩
  have hasserts := hdone.asserts
  rw [hassert, hp.toCbor, Bool.false_or] at hasserts
  refine ⟨⟨hp.filters, hp.fromCbor, hdone.capacity.trans hp.toCbor⟩, ?_⟩
  split
  · rename_i hfit
    refine ⟨hasserts.trans (decide_eq_false (Nat.not_lt.mpr hfit)), fun msg hmsg => ?_⟩
    rw [onSample] at hmsg
    cases List.mem_singleton.mp hmsg
    exact ⟨_, hdone.toBytes (by rw [hp.toCbor]; exact hfit), rfl⟩
  · rename_i hlong
    exact hasserts.trans (decide_eq_true (Nat.lt_of_not_le hlong))

end

end Proxy

/-! ## Runs -/

/-- What can happen to the proxy. -/
inductive ProxyInput where
  | chunk (c : Chunk)
  | sample (id : Int) (data : Bytes)

/-- The message of a sample fits. -/
def ProxyInput.Sendable : ProxyInput → Prop
  | .chunk _ => True
  | .sample id data => (encodeArray (MsgPublish.elements ⟨id, data⟩)).length ≤ 1024

/-- The messages that an input may be answered with. -/
def ProxyInput.Answer (frame : Bytes) : ProxyInput → Prop
  | .chunk _ => frame = connectReplyFrame
  | .sample id data => frame = encodeArray (MsgPublish.elements ⟨id, data⟩)

namespace ProxyMain

variable {T : TinyCbor}

def step (s : ProxyMain T) : ProxyInput → ProxyMain T × List ProxyEvent
  | .chunk c => s.onChunk c
  | .sample id data => ({ s with proxy := (s.proxy.onSample id data).1 },
    (s.proxy.onSample id data).2)

/-- The state in which `main` leaves the proxy, and every input that it survives. -/
structure Sound (s : ProxyMain T) : Prop where
  ready : s.proxy.Ready
  toCbor : s.proxy.toCbor.assertFailed = false

section

variable (hT : T.Documented)
include hT

theorem step_sound {s : ProxyMain T} (hs : s.Sound) (i : ProxyInput) :
    (s.step i).1.proxy.Ready ∧
      ((s.step i).1.proxy.toCbor.assertFailed = false ↔ i.Sendable) ∧
      (i.Sendable → ∀ msg, .toSerial msg ∈ (s.step i).2 →
        ∃ frame, msg = some frame ∧ i.Answer frame) := by
  cases i with
  | chunk c =>
    obtain ⟨hready, hasserted, hmade⟩ := Proxy.onFrames_answers hT hs.ready hs.toCbor
      (emitted (FrameExtractor.handleRxd s.bytesToFrame c).2)
    exact ⟨hready, iff_of_true hasserted trivial, fun _ => hmade⟩
  | sample id data =>
    obtain ⟨hready, hanswers⟩ := Proxy.onSample_answers hT hs.ready hs.toCbor id data
    by_cases hfit : (encodeArray (MsgPublish.elements ⟨id, data⟩)).length ≤ 1024
    · rw [if_pos hfit] at hanswers
      exact ⟨hready, iff_of_true hanswers.toCbor hfit, fun _ => hanswers.made⟩
    · rw [if_neg hfit] at hanswers
      exact ⟨hready, iff_of_false (by simpa [step] using hanswers) hfit, fun h => absurd h hfit⟩

/-- An assertion that has failed has failed. -/
theorem step_assertFailed {s : ProxyMain T} (hs : s.proxy.toCbor.assertFailed = true)
    (i : ProxyInput) : (s.step i).1.proxy.toCbor.assertFailed = true := by
  have hreply (p : Proxy T) (hp : p.toCbor.assertFailed = true) :
      p.connectReply.1.toCbor.assertFailed = true :=
    (MsgConnect.reflect_finished hT p.toCbor msgConnectReply).asserts.trans (by rw [hp]; rfl)
  have hhandle (frame : Bytes) (p : Proxy T) (h : Handler)
      (hp : p.toCbor.assertFailed = true) :
      (Proxy.handle frame p h).1.toCbor.assertFailed = true := by
    rw [Proxy.handle]
    dsimp only
    split
    · exact hp
    · split
      · split
        · exact hreply _ hp
        · exact hp
      · exact hp
  cases i with
  | chunk c =>
    exact Mealy.run_keeps (P := fun p : Proxy T => p.toCbor.assertFailed = true)
      (fun p frame hp => Mealy.run_keeps
        (P := fun p : Proxy T => p.toCbor.assertFailed = true) (hhandle frame) hp Handler.all) hs _
  | sample id data =>
    exact (MsgPublish.reflect_finished hT s.proxy.toCbor ⟨id, data⟩).asserts.trans
      (by rw [hs]; rfl)

/-- **Nothing on the line stops the proxy.** In every run, with any bytes coming in in any
chunks and any samples, no assertion has failed at the end if and only if the samples fit;
and then every message that has gone out is the reply to a connect or that of a sample. -/
theorem proxy_endures_iff (s : ProxyMain T) (hs : s.proxy.Ready)
    (hassert : s.proxy.toCbor.assertFailed = false) (is : List ProxyInput) :
    ((Mealy.run step s is).1.proxy.toCbor.assertFailed = false ↔ ∀ i ∈ is, i.Sendable) ∧
      ((∀ i ∈ is, i.Sendable) → ∀ msg, .toSerial msg ∈ (Mealy.run step s is).2 →
        ∃ frame, msg = some frame ∧ ∃ i ∈ is, i.Answer frame) := by
  induction is generalizing s with
  | nil => exact ⟨iff_of_true hassert (by simp), by simp⟩
  | cons i is ih =>
    obtain ⟨hready, hiff, hanswers⟩ := step_sound hT ⟨hs, hassert⟩ i
    rw [List.forall_mem_cons, Mealy.run_cons]
    by_cases hi : i.Sendable
    · obtain ⟨hrest, hrestAnswers⟩ := ih (s.step i).1 hready (hiff.mpr hi)
      refine ⟨hrest.trans (by simp [hi]), fun h msg hmsg => ?_⟩
      rcases List.mem_append.mp hmsg with hmsg | hmsg
      · obtain ⟨frame, hframe, hanswer⟩ := hanswers hi msg hmsg
        exact ⟨frame, hframe, i, List.mem_cons_self, hanswer⟩
      · obtain ⟨frame, hframe, j, hj, hanswer⟩ := hrestAnswers h.2 msg hmsg
        exact ⟨frame, hframe, j, List.mem_cons_of_mem _ hj, hanswer⟩
    -- the program has stopped, and the model goes on with the failure
    · have hfailed : (s.step i).1.proxy.toCbor.assertFailed = true := by
        simpa [hi] using hiff
      have hlater := Mealy.run_keeps
        (P := fun s : ProxyMain T => s.proxy.toCbor.assertFailed = true)
        (fun _ j hs => step_assertFailed hT hs j) hfailed is
      exact ⟨iff_of_false (by simpa using hlater) (fun h => hi h.1), fun h => absurd h.1 hi⟩

end

/-- Other bytes, a sample that fits and one that does not. -/
theorem proxy_endures_two :
    let s : ProxyMain lenient := ⟨⟨[], [], 0⟩, .start lenient⟩
    let is : List ProxyInput := [.chunk ⟨[(0x7E, 1), (0x83, 2), (0x7E, 3)], 4⟩,
      .sample 7 [1, 2, 3], .sample 7 (List.replicate 1100 0)]
    ((Mealy.run step s is).1.proxy.toCbor.assertFailed = false ↔ ∀ i ∈ is, i.Sendable) ∧
      ((∀ i ∈ is, i.Sendable) → ∀ msg, .toSerial msg ∈ (Mealy.run step s is).2 →
        ∃ frame, msg = some frame ∧ ∃ i ∈ is, i.Answer frame) :=
  proxy_endures_iff (TinyCbor.reference_documented _) _ (Proxy.start_ready lenient) rfl _

end ProxyMain

end ZenohProxy
