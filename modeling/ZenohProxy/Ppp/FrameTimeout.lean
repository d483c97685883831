import Mathlib.Data.List.Induction
import ZenohProxy.Ppp.Transport

/-!
# The frame timeout

`handleRxd` looks at the clock once a chunk, after its bytes. A frame that stalled is
dropped by that test when a chunk ends in the meantime; when the closing flag is in the
first chunk to come after the stall, the frame has been emitted before the test is made.

`timeout_enforced_iff` says which timed inputs are affected: those in which a flag comes
late for a body that `ppp_deframe` accepts. A body is what the receiver holds at a flag, and
`reached_inputFrame` reads it off the input: the bytes since the start, the last flag or
the last chunk that ended after the timeout.
-/

namespace ZenohProxy

/-- A constructed extractor: `_lastFrameFlag` is not initialised. -/
def FrameExtractor.init (lastFrameFlag : UInt64) : FrameRx := ⟨[], [], lastFrameFlag⟩

/-- The reading of the last flag among some bytes. -/
def openedAt (bs : List (UInt8 × UInt64)) : Option UInt64 :=
  ((bs.filter fun b => b.1 = pppFlagChar).getLast?).map Prod.snd

/-- A flag read at `t` is late: the flag before it, or a byte of the body it closes, was
read more than the timeout ago. -/
def Overdue (opened : Option UInt64) (body : List (UInt8 × UInt64)) (t : UInt64) : Prop :=
  (∃ t₀ ∈ opened, t₀.toNat + frameTimeout.toNat < t.toNat)
    ∨ ∃ u ∈ body, u.2.toNat + frameTimeout.toNat < t.toNat

/-- The receiver when it has read some chunks and the first bytes of the next one. -/
def reached (last : UInt64) (before : List Chunk) (xs : List (UInt8 × UInt64)) : FrameRx :=
  ((Mealy.run FrameExtractor.handleRxd (FrameExtractor.init last) before).1.handleBytes xs).1

/-- No payload is emitted at a flag that is late for it. The bytes of the payload's frame
are the last ones received. -/
def TimeoutEnforced (last : UInt64) (cs : List Chunk) : Prop :=
  ∀ before c after xs b ys p, cs = before ++ c :: after → c.bytes = xs ++ b :: ys →
    .emit p ∈ ((reached last before xs).handleByte b).2 →
      ¬ Overdue (openedAt (stream before ++ xs))
        ((stream before ++ xs).drop
          ((stream before ++ xs).length - (reached last before xs).inputFrame.length)) b.2

theorem lastFlagAfter_append (last : UInt64) (xs ys : List (UInt8 × UInt64)) :
    lastFlagAfter last (xs ++ ys) = lastFlagAfter (lastFlagAfter last xs) ys := by
  induction xs generalizing last with
  | nil => rfl
  | cons x xs ih => exact ih _

/-! ## Bodies of the timed input -/

/-- Where a body can start: with the input, after a flag, or after a chunk that ended more
than the timeout after the last flag. -/
inductive FreshAfter (last : UInt64) : List RxEvent → Prop where
  | start : FreshAfter last []
  | flag (es : List RxEvent) (t : UInt64) : FreshAfter last (es ++ [.byte (pppFlagChar, t)])
  | timeout (es : List RxEvent) (now : UInt64) (hlate : frameTimeout < now - lastFlag last es) :
      FreshAfter last (es ++ [.chunkEnd now])

/-- After `pre` the events `body` start a body that no flag and no timeout ends. -/
structure Pending (last : UInt64) (pre body : List RxEvent) : Prop where
  fresh : FreshAfter last pre
  noFlag : pppFlagChar ∉ letters body
  inTime : ∀ now, .chunkEnd now ∈ body → ¬ frameTimeout < now - lastFlag last pre

/-- A flag of the timed input comes late for the body it closes, and the body is one that
`ppp_deframe` accepts. -/
def LateFrame (last : UInt64) (cs : List Chunk) : Prop :=
  ∃ pre body t post, allEvents cs = pre ++ body ++ .byte (pppFlagChar, t) :: post
    ∧ Pending last pre body ∧ (pppDeframe (letters body)).1 = true
    ∧ Overdue (openedAt (stamped pre)) (stamped body) t

theorem FreshAfter.pending {last : UInt64} {pre : List RxEvent} (h : FreshAfter last pre) :
    Pending last pre [] :=
  ⟨h, List.not_mem_nil, fun _ hmem => absurd hmem List.not_mem_nil⟩

/-- A body leaves the last flag as it was. -/
theorem Pending.lastFlag_eq {last : UInt64} {pre body : List RxEvent}
    (h : Pending last pre body) : lastFlag last (pre ++ body) = lastFlag last pre := by
  have hbody := (eventInputs_body h.noFlag rfl h.inTime).2
  rw [lastFlag, stamped_append, lastFlagAfter_append, ← lastFlag, ← lastFlag]
  exact hbody

theorem openedAt_append_body {pre body : List (UInt8 × UInt64)}
    (hbody : pppFlagChar ∉ body.map Prod.fst) : openedAt (pre ++ body) = openedAt pre := by
  have hnone : body.filter (fun b => b.1 = pppFlagChar) = [] := by
    apply List.filter_eq_nil_iff.mpr
    intro b hb hflag
    apply hbody
    rw [← of_decide_eq_true hflag]
    exact List.mem_map_of_mem hb
  rw [openedAt, List.filter_append, hnone, List.append_nil, openedAt]

/-- **Every input ends in a body**, which may be empty. Induction on the events from the
end: a flag and a timeout start a new one, whatever else comes belongs to the one before. -/
theorem exists_pending (last : UInt64) (es : List RxEvent) :
    ∃ pre body, es = pre ++ body ∧ Pending last pre body := by
  induction es using List.reverseRecOn with
  | nil => exact ⟨[], [], rfl, FreshAfter.start.pending⟩
  | append_singleton es e ih =>
    obtain ⟨pre, body, rfl, hpend⟩ := ih
    cases e with
    | byte b =>
      by_cases hb : b.1 = pppFlagChar
      · have hflag : FreshAfter last (pre ++ body ++ [.byte b]) := by
          obtain ⟨c, t⟩ := b
          subst hb
          exact .flag _ t
        exact ⟨pre ++ body ++ [.byte b], [], (List.append_nil _).symm, hflag.pending⟩
      · refine ⟨pre, body ++ [.byte b], List.append_assoc .., hpend.fresh, ?_, ?_⟩
        · rw [letters_append, List.mem_append, not_or]
          refine ⟨hpend.noFlag, ?_⟩
          show pppFlagChar ∉ [b.1]
          rw [List.mem_singleton]
          exact Ne.symm hb
        · intro now hnow
          apply hpend.inTime
          simpa using hnow
    | chunkEnd now =>
      by_cases hlate : frameTimeout < now - lastFlag last pre
      · have htimeout : FreshAfter last (pre ++ body ++ [.chunkEnd now]) := by
          apply FreshAfter.timeout
          rw [hpend.lastFlag_eq]
          exact hlate
        exact ⟨pre ++ body ++ [.chunkEnd now], [], (List.append_nil _).symm, htimeout.pending⟩
      · refine ⟨pre, body ++ [.chunkEnd now], List.append_assoc .., hpend.fresh, ?_, ?_⟩
        · rw [letters_append]
          simpa [letters, stamped] using hpend.noFlag
        · intro now' hnow'
          rw [List.mem_append, List.mem_singleton, RxEvent.chunkEnd.injEq] at hnow'
          rcases hnow' with h | rfl
          · exact hpend.inTime now' h
          · exact hlate

theorem split_fresh {last : UInt64} {pre : List RxEvent} (h : FreshAfter last pre) :
    (Segments.split pppFlagChar [] (eventInputs last pre)).1 = [] := by
  cases h with
  | start => rfl
  | flag es t =>
    rw [eventInputs_append, Segments.split_append]
    simp [eventInputs, Segments.split_cons, Segments.step]
  | timeout es now hlate =>
    rw [eventInputs_append, Segments.split_append]
    simp [eventInputs, hlate, Segments.split_cons, Segments.step]

/-- **What the splitter keeps is the body.** -/
theorem split_pending {last : UInt64} {pre body : List RxEvent} (h : Pending last pre body) :
    (Segments.split pppFlagChar [] (eventInputs last (pre ++ body))).1 = letters body := by
  obtain ⟨hin, -⟩ := eventInputs_body h.noFlag rfl h.inTime
  rw [eventInputs_append, hin, Segments.split_append, split_fresh h.fresh,
    Segments.split_ordinary _ h.noFlag]
  rfl

/-! ## Bytes of chunks among the events -/

theorem reached_inputFrame {last : UInt64} {before : List Chunk}
    {xs : List (UInt8 × UInt64)} {pre body : List RxEvent}
    (hes : allEvents before ++ xs.map .byte = pre ++ body) (h : Pending last pre body) :
    (reached last before xs).inputFrame = letters body := by
  obtain ⟨hchunks, -⟩ := emitted_eq_split (fun inputFrame _ => inputFrame) before
    (FrameExtractor.init last)
  obtain ⟨hbytes, -⟩ := FrameRx.handleBytes_eq xs
    (Mealy.run FrameExtractor.handleRxd (FrameExtractor.init last) before).1
  have hinputs : eventInputs last (allEvents before ++ xs.map .byte)
      = eventInputs last (allEvents before) ++ Segments.symbols (xs.map Prod.fst) := by
    have hxs := eventInputs_bytes (lastFlag last (allEvents before)) xs []
    rw [List.append_nil, eventInputs, List.append_nil] at hxs
    rw [eventInputs_append, hxs]
  rw [← split_pending h, ← hes, hinputs, Segments.split_append, ← splitInputs_eq]
  rw [reached, hbytes]
  exact congrArg (fun kept => (Segments.split pppFlagChar kept _).1) hchunks

theorem bytes_split {bs : List (UInt8 × UInt64)} {now : UInt64} {es gs : List RxEvent}
    {b : UInt8 × UInt64} (h : bs.map .byte ++ [.chunkEnd now] = es ++ .byte b :: gs) :
    ∃ xs ys, bs = xs ++ b :: ys ∧ es = xs.map .byte := by
  induction bs generalizing es with
  | nil =>
    cases es with
    | nil => simp at h
    | cons e es => simp at h
  | cons a bs ih =>
    cases es with
    | nil =>
      simp only [List.map_cons, List.cons_append, List.nil_append, List.cons.injEq,
        RxEvent.byte.injEq] at h
      exact ⟨[], bs, by rw [h.1]; rfl, rfl⟩
    | cons e es =>
      simp only [List.map_cons, List.cons_append, List.cons.injEq] at h
      obtain ⟨rfl, h⟩ := h
      obtain ⟨xs, ys, rfl, rfl⟩ := ih h
      exact ⟨a :: xs, ys, rfl, rfl⟩

/-- A byte among the events is a byte of one of the chunks. -/
theorem allEvents_byte {cs : List Chunk} {es gs : List RxEvent} {b : UInt8 × UInt64}
    (h : allEvents cs = es ++ .byte b :: gs) :
    ∃ before c after xs ys, cs = before ++ c :: after ∧ c.bytes = xs ++ b :: ys
      ∧ es = allEvents before ++ xs.map .byte := by
  induction cs generalizing es with
  | nil => simp [allEvents] at h
  | cons c cs ih =>
    rw [allEvents, List.flatMap_cons, ← allEvents] at h
    rcases List.append_eq_append_iff.mp h with ⟨mid, rfl, hrest⟩ | ⟨mid, hmid, hrest⟩
    · -- the byte comes after the first chunk
      obtain ⟨before, d, after, xs, ys, rfl, hd, rfl⟩ := ih hrest
      refine ⟨c :: before, d, after, xs, ys, rfl, hd, ?_⟩
      rw [allEvents, allEvents, List.flatMap_cons, List.append_assoc]
    · cases mid with
      | nil =>
        -- it is the first of the other chunks
        rw [List.append_nil] at hmid
        obtain ⟨before, d, after, xs, ys, rfl, hd, hnil⟩ := @ih [] hrest.symm
        refine ⟨c :: before, d, after, xs, ys, rfl, hd, ?_⟩
        rw [← hmid, allEvents, List.flatMap_cons, ← allEvents, List.append_assoc, ← hnil,
          List.append_nil]
      | cons m mid =>
        -- it is a byte of the first chunk
        rw [List.cons_append, List.cons.injEq] at hrest
        obtain ⟨rfl, -⟩ := hrest
        rw [Chunk.events] at hmid
        obtain ⟨xs, ys, hbytes, rfl⟩ := bytes_split hmid
        exact ⟨[], c, cs, xs, ys, rfl, hbytes, rfl⟩

/-- A payload is emitted at a flag, from a body that `ppp_deframe` accepts. -/
theorem FrameRx.emit_mem_iff (rx : FrameRx) (b : UInt8 × UInt64) (p : Bytes) :
    .emit p ∈ (rx.handleByte b).2
      ↔ b.1 = pppFlagChar ∧ pppDeframe rx.inputFrame = (true, p) := by
  have hstdout (bs : Bytes) : .emit p ∉ toStdout bs := by
    unfold toStdout
    split <;> simp
  unfold FrameRx.handleByte
  by_cases hb : b.1 = pppFlagChar
  · rw [if_pos hb]
    show .emit p ∈ (FrameRx.handleFrame { rx with lastFrameFlag := b.2 }).2 ↔ _
    unfold FrameRx.handleFrame
    by_cases hempty : rx.inputFrame = []
    · simp [hempty, pppDeframe]
    · rw [if_neg hempty]
      cases hverdict : pppDeframe rx.inputFrame with
      | mk ok out =>
        cases ok with
        | true => simp [hb, eq_comm]
        | false => simp [hstdout]
  · simp [hb]

/-- The last flag and the last bytes received are those of the pending body. -/
theorem received_pending {last : UInt64} {before : List Chunk}
    {xs : List (UInt8 × UInt64)} {pre body : List RxEvent}
    (hes : allEvents before ++ xs.map .byte = pre ++ body) (h : Pending last pre body)
    (t : UInt64) :
    Overdue (openedAt (stream before ++ xs))
        ((stream before ++ xs).drop
          ((stream before ++ xs).length - (reached last before xs).inputFrame.length)) t
      = Overdue (openedAt (stamped pre)) (stamped body) t := by
  have hstream : stream before ++ xs = stamped pre ++ stamped body := by
    rw [← stamped_append, ← hes, stamped_append, stamped_allEvents, stamped_bytes]
  have hlen : (reached last before xs).inputFrame.length = (stamped body).length := by
    rw [reached_inputFrame hes h, letters, List.length_map]
  rw [hstream, hlen, openedAt_append_body h.noFlag, List.length_append, Nat.add_sub_cancel,
    List.drop_left]

/-- **When the timeout is enforced**: exactly when no flag comes late for a body that
`ppp_deframe` accepts. -/
theorem timeout_enforced_iff (last : UInt64) (cs : List Chunk) :
    TimeoutEnforced last cs ↔ ¬ LateFrame last cs := by
  constructor
  · rintro henforced ⟨pre, body, t, post, hes, hpend, hok, hlate⟩
    obtain ⟨before, c, after, xs, ys, hcs, hc, hsplit⟩ := allEvents_byte hes
    have hkept := reached_inputFrame hsplit.symm hpend
    apply henforced before c after xs _ ys (pppDeframe (letters body)).2 hcs hc
    · rw [FrameRx.emit_mem_iff, hkept]
      exact ⟨rfl, Prod.ext hok rfl⟩
    · rw [received_pending hsplit.symm hpend]
      exact hlate
  · intro hnone before c after xs b ys p hcs hc hemit hlate
    obtain ⟨hflag, hdeframe⟩ := (FrameRx.emit_mem_iff _ _ _).mp hemit
    obtain ⟨pre, body, hes, hpend⟩ := exists_pending last (allEvents before ++ xs.map .byte)
    apply hnone
    refine ⟨pre, body, b.2, ys.map .byte ++ .chunkEnd c.done :: allEvents after, ?_, hpend, ?_, ?_⟩
    · rw [← hes, hcs, ← hflag]
      simp [allEvents, Chunk.events, hc]
    · rw [← reached_inputFrame hes hpend, hdeframe]
    · rw [received_pending hes hpend] at hlate
      exact hlate

/-- A frame in two chunks, the second of which comes five seconds after the first. -/
def lateChunks : List Chunk :=
  [⟨[(0x7E, 1), (0x07, 2)], 3⟩, ⟨[(0xC7, 5000), (0x84, 5000), (0x7E, 5000)], 5001⟩]

/-- Its payload is emitted although the closing flag is late. -/
theorem timeout_not_enforced :
    ¬ ∀ last cs, (readings cs).Pairwise (· ≤ ·) → TimeoutEnforced last cs := by
  intro h
  have hemit : .emit [0x07] ∈ ((reached 0 [⟨[(0x7E, 1), (0x07, 2)], 3⟩]
      [(0xC7, 5000), (0x84, 5000)]).handleByte (0x7E, 5000)).2 := by decide +kernel
  apply h 0 lateChunks (by decide) _ _ [] _ _ [] [0x07] rfl rfl hemit
  exact .inl ⟨1, by decide, by decide⟩

end ZenohProxy
