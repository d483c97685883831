import ZenohProxy.Ppp.Fcs
import ZenohProxy.Lib.Stuffing

/-!
# Framing and deframing

`ppp_frame` and `ppp_deframe` of `common/ppp_frame.cpp`. The sender writes a flag, the
stuffed payload and trailer, and a flag; the receiver gets what stood between two flags.

`pppFrame_eq` and `pppDeframe_eq` give both loops in the words of `Lib/Stuffing.lean`, and
`pppDeframe_pppBody` is the round trip: the body of a frame is accepted with its payload.
-/

namespace ZenohProxy

def pppMaskChar : UInt8 := 0x20
def pppEscChar : UInt8 := 0x7D
def pppFlagChar : UInt8 := 0x7E

/-- Adds a byte to the buffer, escaped according to the PPP standard. -/
def addEscaped (out : Bytes) (c : UInt8) : Bytes :=
  if c = pppEscChar ∨ c = pppFlagChar then out ++ [pppEscChar, c ^^^ pppMaskChar]
  else out ++ [c]

/-- The loop of `ppp_frame`: each byte is escaped and enters the check sequence. -/
def pppFrameLoop (out : Bytes) (fcs : Fcs) : Bytes → Bytes × Fcs
  | [] => (out, fcs)
  | c :: rest => pppFrameLoop (addEscaped out c) (fcs.write c) rest

def pppFrame (payload : Bytes) : Bytes :=
  let (out, fcs) := pppFrameLoop [pppFlagChar] Fcs.init payload
  addEscaped (addEscaped out (fcsLow fcs.result)) (fcsHigh fcs.result) ++ [pppFlagChar]

/-! ## Deframing -/

/-- The locals of the loop of `ppp_deframe`. -/
structure DeframeState where
  out : Bytes
  escFlag : Bool
  fcs : Fcs

/-- The loop of `ppp_deframe`; the second component tells that it stopped at a flag. -/
def pppDeframeLoop (st : DeframeState) : Bytes → DeframeState × Bool
  | [] => (st, false)
  | c :: rest =>
    -- the escape itself is not part of the content, nor of the check sequence
    if c = pppEscChar then pppDeframeLoop { st with escFlag := true } rest
    else if c = pppFlagChar then (st, true)
    else if st.escFlag then
      pppDeframeLoop
        { out := st.out ++ [c ^^^ pppMaskChar]
          fcs := st.fcs.write (c ^^^ pppMaskChar)
          escFlag := false } rest
    else pppDeframeLoop { st with fcs := st.fcs.write c, out := st.out ++ [c] } rest

/-- The result and what is left in `out`. Popping the last byte of an empty `out` leaves it
empty. -/
def pppDeframe (input : Bytes) : Bool × Bytes :=
  if input.length < 3 then (false, [])
  else
    let (st, atFlag) := pppDeframeLoop ⟨[], false, Fcs.init⟩ input
    if atFlag then (false, st.out)
    -- the trailer is taken off whatever the check says
    else (!st.escFlag && st.fcs.result == fcsGood, st.out.dropLast.dropLast)

/-! ## The stuffing scheme of the line -/

theorem mask_mask (b : UInt8) : b ^^^ pppMaskChar ^^^ pppMaskChar = b := by
  rw [UInt8.xor_assoc, UInt8.xor_self, UInt8.xor_zero]

/-- Flag, escape and mask form a stuffing scheme. -/
def pppStuffing : Stuffing UInt8 where
  flag := pppFlagChar
  esc := pppEscChar
  mask b := b ^^^ pppMaskChar
  flag_ne_esc := by decide
  mask_mask := mask_mask
  mask_ne_flag := by rintro a (rfl | rfl) <;> decide
  mask_ne_esc := by rintro a (rfl | rfl) <;> decide

theorem addEscaped_eq (out : Bytes) (c : UInt8) :
    addEscaped out c = out ++ pppStuffing.escape c := by
  unfold addEscaped Stuffing.escape
  show _ = out ++ if c = pppEscChar ∨ c = pppFlagChar then _ else _
  split <;> rfl

/-- The two trailer bytes of a payload, in the order they are sent. -/
def pppTrailer (payload : Bytes) : Bytes :=
  let w := (Fcs.init.writes payload).result
  [fcsLow w, fcsHigh w]

/-- What stands between the two flags of a frame. -/
def pppBody (payload : Bytes) : Bytes := pppStuffing.stuff (payload ++ pppTrailer payload)

theorem pppFrameLoop_eq (payload out : Bytes) (fcs : Fcs) :
    pppFrameLoop out fcs payload = (out ++ pppStuffing.stuff payload, fcs.writes payload) := by
  induction payload generalizing out fcs with
  | nil => simp [pppFrameLoop, Stuffing.stuff_nil, Fcs.writes]
  | cons c rest ih =>
    rw [pppFrameLoop, ih, addEscaped_eq, Stuffing.stuff_cons, List.append_assoc]
    rfl

/-- **A frame is a flag, the body and a flag.** -/
theorem pppFrame_eq (payload : Bytes) :
    pppFrame payload = pppFlagChar :: (pppBody payload ++ [pppFlagChar]) := by
  unfold pppFrame
  rw [pppFrameLoop_eq]
  simp only [addEscaped_eq, pppBody, pppTrailer, Stuffing.stuff_append]
  simp [Stuffing.stuff_cons, Stuffing.stuff_nil]

theorem flag_not_mem_pppBody (payload : Bytes) : pppFlagChar ∉ pppBody payload :=
  pppStuffing.flag_not_mem_stuff _

/-- A body is never empty: it holds at least the trailer. -/
theorem length_pppBody (payload : Bytes) : payload.length + 2 ≤ (pppBody payload).length := by
  have h := pppStuffing.length_le_stuff (payload ++ pppTrailer payload)
  rw [List.length_append] at h
  exact h

/-! ## The receiver's loop -/

/-- The loop reads to the end of an input without flags, and computes what the scan of the
stuffing scheme computes, each byte it yields entering the check sequence. -/
theorem pppDeframeLoop_eq (input : Bytes) (hflag : pppFlagChar ∉ input) (st : DeframeState) :
    pppDeframeLoop st input
      = (let r := pppStuffing.unstuff st.escFlag input
         (⟨st.out ++ r.1, r.2, st.fcs.writes r.1⟩, false)) := by
  induction input generalizing st with
  | nil => simp [pppDeframeLoop, Stuffing.unstuff, Fcs.writes]
  -- the branches of the loop are those of the scan
  | cons c rest ih =>
    rw [List.mem_cons, not_or] at hflag
    obtain ⟨hc, hrest⟩ := hflag
    have hesc : pppStuffing.esc = pppEscChar := rfl
    rw [pppDeframeLoop, Stuffing.unstuff, hesc]
    by_cases he : c = pppEscChar
    · rw [if_pos he, if_pos he, ih hrest]
    · rw [if_neg he, if_neg he, if_neg (Ne.symm hc)]
      cases hf : st.escFlag with
      | true =>
        simp only [if_true, ih hrest, Fcs.writes, List.foldl_cons, List.append_assoc]
        rfl
      | false =>
        simp only [Bool.false_eq_true, if_false, ih hrest, Fcs.writes, List.foldl_cons,
          List.append_assoc]
        rfl

/-- An input with a flag in it stops the loop there. -/
theorem pppDeframeLoop_flag (input : Bytes) (hflag : pppFlagChar ∈ input) (st : DeframeState) :
    (pppDeframeLoop st input).2 = true := by
  induction input generalizing st with
  | nil => exact absurd hflag List.not_mem_nil
  | cons c rest ih =>
    rw [pppDeframeLoop]
    by_cases he : c = pppEscChar
    · have hrest : pppFlagChar ∈ rest := by
        rcases List.mem_cons.mp hflag with h | h
        · exact absurd (h.trans he) (by decide)
        · exact h
      rw [if_pos he]
      exact ih hrest _
    · rw [if_neg he]
      by_cases hc : c = pppFlagChar
      · rw [if_pos hc]
      · have hrest : pppFlagChar ∈ rest := (List.mem_cons.mp hflag).resolve_left (Ne.symm hc)
        rw [if_neg hc]
        split
        · exact ih hrest _
        · exact ih hrest _

/-- **`ppp_deframe` in closed form** on an input without flags: the unstuffed content must
end with no escape pending and leave the good value in the check sequence, and its last two
bytes are taken off. -/
theorem pppDeframe_eq {input : Bytes} (hlen : 3 ≤ input.length) (hflag : pppFlagChar ∉ input) :
    pppDeframe input
      = (let r := pppStuffing.unstuff false input
         (!r.2 && (Fcs.init.writes r.1).result == fcsGood, r.1.dropLast.dropLast)) := by
  unfold pppDeframe
  rw [if_neg (Nat.not_lt.mpr hlen), pppDeframeLoop_eq input hflag]
  simp

/-- Whatever is accepted holds no flag and at least three bytes. -/
theorem pppDeframe_accepts {input p : Bytes} (h : pppDeframe input = (true, p)) :
    pppFlagChar ∉ input ∧ 3 ≤ input.length := by
  unfold pppDeframe at h
  split at h
  · simp at h
  · rename_i hlen
    refine ⟨fun hflag => ?_, by omega⟩
    have hstop := pppDeframeLoop_flag input hflag ⟨[], false, Fcs.init⟩
    simp [hstop] at h

/-- **Round trip**: the body of the frame of a non-empty payload is accepted with that
payload. -/
theorem pppDeframe_pppBody {p : Bytes} (hne : p ≠ []) : pppDeframe (pppBody p) = (true, p) := by
  have hpos : 1 ≤ p.length := List.length_pos_iff.mpr hne
  have hlen := length_pppBody p
  rw [pppDeframe_eq (by omega) (flag_not_mem_pppBody p), pppBody, Stuffing.unstuff_stuff]
  -- the check sequence went through the payload and its trailer
  have hgood : (Fcs.init.writes (p ++ pppTrailer p)).result = fcsGood := by
    rw [Fcs.writes, List.foldl_append]
    exact Fcs.result_after_trailer _
  have hdrop : (p ++ pppTrailer p).dropLast.dropLast = p := by
    simp [pppTrailer]
  simp [hgood, hdrop]

end ZenohProxy
