import Mathlib.Data.List.Basic
import ZenohProxy.Ppp.Transport

/-!
# Every received byte is accounted for

A serial line carries frames and, in between, the log text of the device. What
`FrameExtractor` does not recognise as a frame it prints, so that the log appears on
stdout. `received_accounted` says that nothing is lost on the way and nothing is both
emitted and printed: the stream falls into pieces, each of which is emitted, printed or an
empty body, in the order of the outputs.
-/

namespace ZenohProxy

open FrameRx

/-- A stretch of the stream, by what becomes of it. -/
inductive Piece where
  /-- A body with its closing flag, of which the payload is emitted. -/
  | frame (body payload : Bytes)
  /-- What stood before a flag and is no frame: it is printed. -/
  | rejected (bs : Bytes)
  /-- What was kept when the timeout fired: it is printed, and no flag has been read. -/
  | stalled (bs : Bytes)

namespace Piece

/-- The bytes as they were received. -/
def line : Piece → Bytes
  | frame body _ => body ++ [pppFlagChar]
  | rejected bs => bs ++ [pppFlagChar]
  | stalled bs => bs

/-- The bytes without the flag. -/
def segment : Piece → Bytes
  | frame body _ => body
  | rejected bs => bs
  | stalled bs => bs

def outputs : Piece → List RxOutput
  | frame _ payload => [.emit payload]
  | rejected bs => toStdout bs
  | stalled bs => toStdout bs

/-- The flag only closes a piece, and the verdict is that of `ppp_deframe`. -/
def Ok (p : Piece) : Prop :=
  pppFlagChar ∉ p.segment ∧
    match p with
    | frame body payload => pppDeframe body = (true, payload)
    | rejected bs => (pppDeframe bs).1 = false
    | stalled _ => True

/-- Without flags the line is the segment. -/
theorem filter_line {p : Piece} (hok : p.Ok) : p.line.filter (· ≠ pppFlagChar) = p.segment := by
  have hfree : p.segment.filter (· ≠ pppFlagChar) = p.segment := by
    apply List.filter_eq_self.mpr
    intro b hb
    rw [decide_eq_true_eq]
    rintro rfl
    exact hok.1 hb
  cases p with
  | frame body payload =>
    rw [line, List.filter_append]
    simpa [segment] using hfree
  | rejected bs =>
    rw [line, List.filter_append]
    simpa [segment] using hfree
  | stalled bs => exact hfree

end Piece

/-- The stretch `bs` of the stream is pieces, and these are their outputs. -/
def Settled (bs : Bytes) (os : List RxOutput) : Prop :=
  ∃ pieces : List Piece, (∀ p ∈ pieces, p.Ok) ∧ bs = pieces.flatMap Piece.line
    ∧ os = pieces.flatMap Piece.outputs

theorem Settled.nil : Settled [] [] := ⟨[], by simp, rfl, rfl⟩

theorem Settled.append (bs cs : Bytes) (os ps : List RxOutput) (h : Settled bs os)
    (h' : Settled cs ps) : Settled (bs ++ cs) (os ++ ps) := by
  obtain ⟨pieces, hok, rfl, rfl⟩ := h
  obtain ⟨pieces', hok', rfl, rfl⟩ := h'
  refine ⟨pieces ++ pieces', fun p hp => ?_, by simp, by simp⟩
  rcases List.mem_append.mp hp with hp | hp
  · exact hok p hp
  · exact hok' p hp

theorem Settled.single {p : Piece} (hok : p.Ok) : Settled p.line p.outputs :=
  ⟨[p], by simpa using hok, by simp, by simp⟩

/-! ## One byte and one chunk -/

/-- What is kept is free of flags, which every byte keeps so. -/
def Kept (rx : FrameRx) : Prop := pppFlagChar ∉ rx.inputFrame

/-- A flag settles what was kept, in one of the ways of a closed piece. -/
theorem handleFrame_settles {rx : FrameRx} (hkept : Kept rx) :
    Settled (rx.inputFrame ++ [pppFlagChar]) rx.handleFrame.2 := by
  unfold handleFrame
  by_cases hempty : rx.inputFrame = []
  · rw [if_pos hempty, hempty]
    exact Settled.single (p := .rejected []) ⟨List.not_mem_nil, rfl⟩
  · rw [if_neg hempty]
    cases hverdict : pppDeframe rx.inputFrame with
    | mk ok out =>
      cases ok with
      | true => exact Settled.single (p := .frame rx.inputFrame out) ⟨hkept, hverdict⟩
      | false =>
        apply Settled.single (p := .rejected rx.inputFrame)
        exact ⟨hkept, congrArg Prod.fst hverdict⟩

/-- **One byte** is kept, or settles what was kept. -/
theorem handleByte_accounts {rx : FrameRx} (b : UInt8 × UInt64) (hkept : Kept rx) :
    Kept (rx.handleByte b).1
      ∧ ∃ xs, rx.inputFrame ++ [b.1] = xs ++ (rx.handleByte b).1.inputFrame
        ∧ Settled xs (rx.handleByte b).2 := by
  unfold handleByte
  by_cases hb : b.1 = pppFlagChar
  · rw [if_pos hb, hb]
    refine ⟨List.not_mem_nil, rx.inputFrame ++ [pppFlagChar], (List.append_nil _).symm, ?_⟩
    have hflagged : Kept { rx with lastFrameFlag := b.2 } := hkept
    exact handleFrame_settles hflagged
  · rw [if_neg hb]
    refine ⟨?_, [], rfl, Settled.nil⟩
    show pppFlagChar ∉ rx.inputFrame ++ [b.1]
    rw [List.mem_append, List.mem_singleton, not_or]
    exact ⟨hkept, Ne.symm hb⟩

/-- **One chunk**: its bytes one after the other, and the timeout, which settles what is
kept then. -/
theorem handleRxd_accounts {rx : FrameRx} (c : Chunk) (hkept : Kept rx) :
    Kept (FrameExtractor.handleRxd rx c).1
      ∧ ∃ xs, rx.inputFrame ++ c.bytes.map Prod.fst
          = xs ++ (FrameExtractor.handleRxd rx c).1.inputFrame
        ∧ Settled xs (FrameExtractor.handleRxd rx c).2 := by
  obtain ⟨hkepts, xs, hheld, hsettled⟩ := Mealy.run_accounts FrameRx.inputFrame
    (fun b : UInt8 × UInt64 => [b.1]) Settled.nil Settled.append
    (fun _ b h => handleByte_accounts b h) hkept c.bytes
  rw [← List.map_eq_flatMap] at hheld
  unfold FrameExtractor.handleRxd FrameRx.handleRxd
  by_cases ht : (rx.handleBytes c.bytes).1.timedOut c.done = true
  · rw [if_pos ht]
    refine ⟨List.not_mem_nil, xs ++ (rx.handleBytes c.bytes).1.inputFrame, ?_, ?_⟩
    · rw [List.append_nil]
      exact hheld
    · apply Settled.append _ _ _ _ hsettled
      exact Settled.single (p := .stalled _) ⟨hkepts, trivial⟩
  · rw [if_neg ht]
    exact ⟨hkepts, xs, hheld, hsettled⟩

/-! ## Runs -/

/-- **Conservation of the received bytes.** -/
theorem received_accounted (rx : FrameRx) (cs : List Chunk) (hempty : rx.inputFrame = []) :
    ∃ pieces : List Piece, (∀ p ∈ pieces, p.Ok)
      ∧ (Mealy.run FrameExtractor.handleRxd rx cs).2 = pieces.flatMap Piece.outputs
      ∧ (stream cs).map Prod.fst
          = pieces.flatMap Piece.line ++ (Mealy.run FrameExtractor.handleRxd rx cs).1.inputFrame
      ∧ ((stream cs).map Prod.fst).filter (· ≠ pppFlagChar)
          = pieces.flatMap Piece.segment
            ++ (Mealy.run FrameExtractor.handleRxd rx cs).1.inputFrame := by
  have hstart : Kept rx := by
    rw [Kept, hempty]
    exact List.not_mem_nil
  obtain ⟨hkept, xs, hheld, pieces, hok, rfl, hout⟩ := Mealy.run_accounts FrameRx.inputFrame
    (fun c : Chunk => c.bytes.map Prod.fst) Settled.nil Settled.append
    (fun _ c h => handleRxd_accounts c h) hstart cs
  have hstream : cs.flatMap (fun c => c.bytes.map Prod.fst) = (stream cs).map Prod.fst := by
    rw [stream, List.map_flatMap]
  rw [hempty, List.nil_append, hstream] at hheld
  refine ⟨pieces, hok, hout, hheld, ?_⟩
  -- the flags in the stream are those that close the pieces
  have hlines : (pieces.flatMap Piece.line).filter (· ≠ pppFlagChar)
      = pieces.flatMap Piece.segment := by
    rw [List.filter_flatMap]
    exact List.flatMap_congr fun p hp => Piece.filter_line (hok p hp)
  rw [hheld, List.filter_append, hlines]
  congr 1
  apply List.filter_eq_self.mpr
  intro b hb
  rw [decide_eq_true_eq]
  rintro rfl
  exact hkept hb

/-- Log text, a frame with a stall after it, and a byte that is still kept. -/
theorem received_accounted_log :
    ∃ pieces : List Piece, (∀ p ∈ pieces, p.Ok)
      ∧ (Mealy.run FrameExtractor.handleRxd ⟨[], [], 0⟩
          [⟨([0x6F, 0x6B] ++ pppFrame [7] ++ [0x21]).map fun b => (b, 5), 2000⟩,
            ⟨[(0x0A, 2001)], 2002⟩]).2 = pieces.flatMap Piece.outputs :=
  (received_accounted ⟨[], [], 0⟩ _ rfl).imp fun _ h => ⟨h.1, h.2.1⟩

end ZenohProxy
