import ZenohProxy.Ppp.Transport

/-!
# A lossless link

Between the two programs the bytes of one frame after the other arrive in order and none is
lost. When no chunk comes too late, a receiver that starts with nothing kept emits the
payloads that were sent (`link_delivers`), and at any time a first part of them
(`link_prefix`): how the bytes are cut into chunks makes no difference.

The second half follows the frames in flight while frames are sent and chunks received in
turn: `InFlight` says what the receiver will emit for the bytes under way.
-/

namespace ZenohProxy

/-- No chunk ends later than the timeout after the last flag. -/
def noTimeout (last : UInt64) : List Chunk → Bool
  | [] => true
  | c :: cs =>
    !(frameTimeout < c.done - lastFlagAfter last c.bytes)
      && noTimeout (lastFlagAfter last c.bytes) cs

theorem splitInputs_of_noTimeout {last : UInt64} {cs : List Chunk} (h : noTimeout last cs) :
    splitInputs last cs = Segments.symbols ((stream cs).map Prod.fst) := by
  induction cs generalizing last with
  | nil => rfl
  | cons c cs ih =>
    simp only [noTimeout, Bool.and_eq_true, Bool.not_eq_true', decide_eq_false_iff_not] at h
    rw [splitInputs, chunkInputs, if_neg h.1, List.append_nil, ih h.2, ← Segments.symbols_append,
      ← List.map_append]
    rfl

/-- The splitter on frames that follow each other without noise. -/
theorem split_pppFrames (payloads : List Bytes) (hne : ∀ p ∈ payloads, p ≠ []) :
    ∃ segs, Segments.split pppFlagChar [] (Segments.symbols (payloads.flatMap pppFrame))
      = ([], segs) ∧ segs.filterMap accepted = payloads := by
  induction payloads with
  | nil => exact ⟨[], rfl, rfl⟩
  | cons p ps ih =>
    obtain ⟨segs, hsplit, haccepted⟩ := ih fun q hq => hne q (List.mem_cons_of_mem _ hq)
    -- the opening flag ends an empty segment, which `ppp_deframe` rejects
    refine ⟨[] :: pppBody p :: segs, ?_, ?_⟩
    · rw [List.flatMap_cons, Segments.symbols_append, Segments.split_append, pppFrame_eq,
        Segments.split_framed _ (flag_not_mem_pppBody p), hsplit]
      rfl
    · rw [List.filterMap_cons_none accepted_nil,
        List.filterMap_cons_some (accepted_pppBody (hne p List.mem_cons_self)), haccepted]

section

variable (report : Bytes → Bytes → Bytes) {rx : FrameRx} {cs : List Chunk}

/-- Without timeouts only the bytes matter, not how they are cut. -/
theorem emitted_of_noTimeout (htime : noTimeout rx.lastFrameFlag cs) :
    emitted (Mealy.run (FrameRx.handleRxd report) rx cs).2
      = (Segments.split pppFlagChar rx.inputFrame
          (Segments.symbols ((stream cs).map Prod.fst))).2.filterMap accepted := by
  rw [(emitted_eq_split report cs rx).2, splitInputs_of_noTimeout htime]

variable {payloads : List Bytes} (hne : ∀ p ∈ payloads, p ≠ [])
include hne

/-- **Exactly the payloads arrive**, in order. -/
theorem link_delivers (hrx : rx.inputFrame = []) (htime : noTimeout rx.lastFrameFlag cs)
    (hbytes : (stream cs).map Prod.fst = payloads.flatMap pppFrame) :
    emitted (Mealy.run (FrameRx.handleRxd report) rx cs).2 = payloads := by
  obtain ⟨segs, hsplit, haccepted⟩ := split_pppFrames payloads hne
  rw [emitted_of_noTimeout report htime, hrx, hbytes, hsplit, haccepted]

/-- What has arrived at any time is a beginning of what was sent. -/
theorem link_prefix (hrx : rx.inputFrame = []) (htime : noTimeout rx.lastFrameFlag cs)
    (hbytes : (stream cs).map Prod.fst <+: payloads.flatMap pppFrame) :
    emitted (Mealy.run (FrameRx.handleRxd report) rx cs).2 <+: payloads := by
  obtain ⟨segs, hsplit, haccepted⟩ := split_pppFrames payloads hne
  have hsegs := Segments.split_prefix pppFlagChar [] (hbytes.map Segments.Input.symbol)
  rw [show (payloads.flatMap pppFrame).map Segments.Input.symbol
    = Segments.symbols (payloads.flatMap pppFrame) from rfl, hsplit] at hsegs
  rw [emitted_of_noTimeout report htime, hrx, ← haccepted]
  exact hsegs.filterMap accepted

end

/-! ## Frames in flight -/

/-- A receiver that keeps `kept` will emit `frames` for the bytes under way, and then keep
nothing. -/
def InFlight (kept bytes : Bytes) (frames : List Bytes) : Prop :=
  ∃ segs, Segments.split pppFlagChar kept (Segments.symbols bytes) = ([], segs) ∧
    segs.filterMap accepted = frames

/-- The timeout, should it come after the chunk, finds nothing to drop. -/
def FrameRx.Keeps (rx : FrameRx) (c : Chunk) : Prop :=
  (rx.handleBytes c.bytes).1.timedOut c.done = true →
    (rx.handleBytes c.bytes).1.inputFrame = []

instance (rx : FrameRx) (c : Chunk) : Decidable (rx.Keeps c) :=
  inferInstanceAs (Decidable (_ → _))

theorem inFlight_nil : InFlight [] [] [] := ⟨[], rfl, rfl⟩

/-- When no byte is under way, no frame is, and nothing is kept. -/
theorem InFlight.eq_nil {kept : Bytes} {frames : List Bytes} (h : InFlight kept [] frames) :
    kept = [] ∧ frames = [] := by
  obtain ⟨segs, hsplit, hframes⟩ := h
  obtain ⟨hkept, rfl⟩ := Prod.ext_iff.mp hsplit
  exact ⟨hkept, hframes.symm⟩

/-- Frames that are sent come after those under way. -/
theorem InFlight.send {kept bytes : Bytes} {frames : List Bytes} (h : InFlight kept bytes frames)
    {sent : List Bytes} (hne : ∀ p ∈ sent, p ≠ []) :
    InFlight kept (bytes ++ sent.flatMap pppFrame) (frames ++ sent) := by
  obtain ⟨segs, hsplit, hframes⟩ := h
  obtain ⟨segs', hsplit', hframes'⟩ := split_pppFrames sent hne
  refine ⟨segs ++ segs', ?_, ?_⟩
  · rw [Segments.symbols_append, Segments.split_append, hsplit, hsplit']
  · rw [List.filterMap_append, hframes, hframes']

/-- A chunk that is received takes the first of the frames under way off. -/
theorem InFlight.receive {rx : FrameRx} {c : Chunk} {rest : Bytes} {frames : List Bytes}
    (h : InFlight rx.inputFrame (c.bytes.map Prod.fst ++ rest) frames) (hkeeps : rx.Keeps c)
    (report : Bytes → Bytes → Bytes) :
    ∃ later, frames = emitted (rx.handleRxd report c).2 ++ later ∧
      InFlight (rx.handleRxd report c).1.inputFrame rest later := by
  obtain ⟨segs, hsplit, rfl⟩ := h
  obtain ⟨hkept, -, hemitted⟩ := rx.handleBytes_eq c.bytes
  rw [Segments.symbols_append, Segments.split_append, ← hkept, Prod.mk.injEq] at hsplit
  obtain ⟨hrest, rfl⟩ := hsplit
  -- what is kept and emitted is the same with the timeout and without
  have hrx : (rx.handleRxd report c).1.inputFrame = (rx.handleBytes c.bytes).1.inputFrame ∧
      emitted (rx.handleRxd report c).2 = emitted (rx.handleBytes c.bytes).2 := by
    unfold FrameRx.handleRxd
    by_cases htime : (rx.handleBytes c.bytes).1.timedOut c.done = true
    · simp [htime, hkeeps htime]
    · simp [htime]
  refine ⟨(Segments.split pppFlagChar (rx.handleBytes c.bytes).1.inputFrame
    (Segments.symbols rest)).2.filterMap accepted, ?_, _, ?_, rfl⟩
  · rw [List.filterMap_append, hrx.2, hemitted]
  · rw [hrx.1]
    exact Prod.ext hrest rfl

/-! ## All at once -/

/-- Bytes that arrive in one piece at the time `t`. -/
def chunkAt (t : UInt64) (bs : Bytes) : Chunk := ⟨bs.map fun b => (b, t), t⟩

@[simp] theorem chunkAt_bytes (t : UInt64) (bs : Bytes) :
    (chunkAt t bs).bytes.map Prod.fst = bs := by
  simp [chunkAt, Function.comp_def]

theorem lastFlagAfter_chunkAt (t : UInt64) (bs : Bytes) :
    lastFlagAfter t (chunkAt t bs).bytes = t := by
  unfold chunkAt
  induction bs with
  | nil => rfl
  | cons b bs ih =>
    rw [List.map_cons, lastFlagAfter, ite_self]
    exact ih

theorem FrameRx.keeps_chunkAt (rx : FrameRx) (bs : Bytes) :
    rx.Keeps (chunkAt rx.lastFrameFlag bs) := by
  intro htime
  rw [timedOut, (rx.handleBytes_eq _).2.1, lastFlagAfter_chunkAt, chunkAt, UInt64.sub_self] at htime
  cases htime

/-- Frames that arrive in one piece are emitted, and nothing is kept. -/
theorem FrameRx.handleRxd_chunkAt (report : Bytes → Bytes → Bytes) {rx : FrameRx}
    (hrx : rx.inputFrame = []) {frames : List Bytes} (hne : ∀ p ∈ frames, p ≠ []) :
    (rx.handleRxd report (chunkAt rx.lastFrameFlag (frames.flatMap pppFrame))).1.inputFrame = [] ∧
      emitted (rx.handleRxd report (chunkAt rx.lastFrameFlag (frames.flatMap pppFrame))).2
        = frames := by
  have hflight : InFlight rx.inputFrame
      ((chunkAt rx.lastFrameFlag (frames.flatMap pppFrame)).bytes.map Prod.fst ++ []) frames := by
    rw [hrx, chunkAt_bytes, List.append_nil]
    exact inFlight_nil.send hne
  obtain ⟨later, hframes, hlater⟩ := hflight.receive
    (rx.keeps_chunkAt (frames.flatMap pppFrame)) report
  obtain ⟨hkept, rfl⟩ := hlater.eq_nil
  rw [List.append_nil] at hframes
  exact ⟨hkept, hframes.symm⟩

end ZenohProxy
