import ZenohProxy.Ppp.Frame
import ZenohProxy.Lib.CrcBits

/-!
# What the deframer accepts

`ppp_deframe` compares the check sequence of payload and trailer with one constant.
`Fcs.result_eq_good_iff` shows that this is the comparison of the trailer with a recomputed
check sequence, and `pppDeframe_accepts_iff` that what is accepted is exactly a stuffed
payload with its own trailer.

The two bytes of the trailer are popped whatever the check says. `pops_nonempty_iff` tells
for which inputs there are two bytes to pop: the guard of the function counts the bytes on
the line, while the pops act on what is left of them without the escapes.
-/

namespace ZenohProxy

/-- What an input holds once the escapes are removed and the bytes after them masked. -/
def pppContent (input : Bytes) : Bytes := (pppStuffing.unstuff false input).1

/-- Whether an input ends in an escape that nothing follows. -/
def pppPending (input : Bytes) : Bool := (pppStuffing.unstuff false input).2

theorem pppDeframe_content {input : Bytes} (hlen : 3 ≤ input.length)
    (hflag : pppFlagChar ∉ input) :
    pppDeframe input
      = (!pppPending input && (Fcs.init.writes (pppContent input)).result == fcsGood,
          (pppContent input).dropLast.dropLast) :=
  pppDeframe_eq hlen hflag

/-! ## The residue and the trailer -/

/-- The word whose low byte is sent first. -/
def trailerWord (lo hi : UInt8) : BitVec 16 := hi.toBitVec ++ lo.toBitVec

theorem trailerWord_low (lo hi : UInt8) : (trailerWord lo hi).setWidth 8 = lo.toBitVec :=
  BitVec.setWidth_append_eq_right

theorem trailerWord_high (lo hi : UInt8) :
    (trailerWord lo hi >>> 8).setWidth 8 = hi.toBitVec := by
  apply BitVec.eq_of_getLsbD_eq
  intro i hi'
  have happ : (trailerWord lo hi).getLsbD (8 + i) = hi.toBitVec.getLsbD (8 + i - 8) := by
    show (hi.toBitVec ++ lo.toBitVec).getLsbD (8 + i) = _
    rw [BitVec.getLsbD_append, if_neg (by omega)]
  rw [BitVec.getLsbD_setWidth, BitVec.getLsbD_ushiftRight, happ, Nat.add_sub_cancel_left]
  simp [hi']

theorem fcsPoly_msb : fcsPoly.msb = true := by decide

/-- Two bytes turn any register into the good one in one way only. -/
theorem Fcs.result_eq_good_iff (f : Fcs) (lo hi : UInt8) :
    ((f.write lo).write hi).result = fcsGood ↔ [lo, hi] = [fcsLow f.result, fcsHigh f.result] := by
  constructor
  · intro hgood
    -- both pairs of bytes lead to the same register, and the shifts lose nothing
    have hboth := congrArg (~~~ ·) (hgood.trans f.result_after_trailer.symm)
    simp only [Fcs.result, BitVec.not_not] at hboth
    rw [write_eq_byteStep, write_eq_byteStep, write_eq_byteStep, write_eq_byteStep,
      ← trailerWord_low lo hi, ← trailerWord_high lo hi, fcsLow, fcsHigh,
      Crc.word_absorb, Crc.word_absorb] at hboth
    have hword : trailerWord lo hi = f.result :=
      (BitVec.xor_right_inj f.fcs).mp (Crc.bits_injective fcsPoly_msb 16 hboth)
    rw [← hword, fcsLow, fcsHigh, trailerWord_low, trailerWord_high]
  · intro htrailer
    rw [List.cons.injEq, List.cons.injEq] at htrailer
    obtain ⟨rfl, rfl, -⟩ := htrailer
    exact f.result_after_trailer

theorem writes_two (f : Fcs) (p : Bytes) (lo hi : UInt8) :
    f.writes (p ++ [lo, hi]) = ((f.writes p).write lo).write hi := by
  rw [Fcs.writes, List.foldl_append]
  rfl

/-- Less than two bytes never leave the good value. -/
theorem result_ne_good_of_short {c : Bytes} (hshort : c.length < 2) :
    (Fcs.init.writes c).result ≠ fcsGood := by
  have hone : ∀ b : Fin 256, (Fcs.init.write (UInt8.ofFin b)).result ≠ fcsGood := by
    decide +kernel
  match c, hshort with
  | [], _ => decide
  | [b], _ => exact hone b.toFin

/-- A message of two bytes or more is a payload and two bytes. -/
theorem eq_append_two {c : Bytes} (hlen : 2 ≤ c.length) :
    ∃ lo hi, c = c.dropLast.dropLast ++ [lo, hi] := by
  have hne : c ≠ [] := by
    rintro rfl
    exact absurd hlen (by decide)
  have hne' : c.dropLast ≠ [] := by
    intro hnil
    have hlast := congrArg List.length hnil
    rw [List.length_dropLast, List.length_nil] at hlast
    omega
  refine ⟨c.dropLast.getLast hne', c.getLast hne, ?_⟩
  calc c = c.dropLast ++ [c.getLast hne] := (List.dropLast_concat_getLast hne).symm
    _ = c.dropLast.dropLast ++ [c.dropLast.getLast hne'] ++ [c.getLast hne] := by
        rw [List.dropLast_concat_getLast hne']
    _ = _ := by rw [List.append_assoc]; rfl

/-- **The residue test is the comparison of the trailer with a recomputed one**, and there
is a trailer whenever it succeeds. -/
theorem result_good_iff (c p : Bytes) :
    (Fcs.init.writes c).result = fcsGood ∧ c.dropLast.dropLast = p ↔ c = p ++ pppTrailer p := by
  constructor
  · rintro ⟨hgood, rfl⟩
    have hlen : 2 ≤ c.length := by
      by_contra hshort
      exact result_ne_good_of_short (Nat.lt_of_not_le hshort) hgood
    obtain ⟨lo, hi, hc⟩ := eq_append_two hlen
    rw [hc, writes_two, Fcs.result_eq_good_iff] at hgood
    rw [pppTrailer, ← hgood]
    exact hc
  · intro hc
    subst hc
    refine ⟨?_, by simp [pppTrailer]⟩
    rw [pppTrailer, writes_two]
    exact Fcs.result_after_trailer _

/-- **The deframer accepts exactly checksummed bodies.** -/
theorem pppDeframe_accepts_iff (input p : Bytes) :
    (pppDeframe input = (true, p)
      ↔ 3 ≤ input.length ∧ pppFlagChar ∉ input ∧ pppPending input = false
        ∧ pppContent input = p ++ pppTrailer p)
    ∧ (∀ lo hi, (Fcs.init.writes (p ++ [lo, hi])).result = fcsGood ↔ [lo, hi] = pppTrailer p)
    ∧ (p ≠ [] → ∃ body, pppFrame p = pppFlagChar :: (body ++ [pppFlagChar])
        ∧ pppDeframe body = (true, p)) := by
  refine ⟨⟨fun hacc => ?_, ?_⟩, fun lo hi => ?_, fun hne => ?_⟩
  · obtain ⟨hflag, hlen⟩ := pppDeframe_accepts hacc
    rw [pppDeframe_content hlen hflag, Prod.mk.injEq, Bool.and_eq_true, beq_iff_eq,
      Bool.not_eq_true'] at hacc
    obtain ⟨⟨hpend, hgood⟩, hdrop⟩ := hacc
    exact ⟨hlen, hflag, hpend, (result_good_iff _ _).mp ⟨hgood, hdrop⟩⟩
  · rintro ⟨hlen, hflag, hpend, hcontent⟩
    obtain ⟨hgood, hdrop⟩ := (result_good_iff _ _).mpr hcontent
    rw [pppDeframe_content hlen hflag, hpend, hgood, hdrop]
    rfl
  · rw [writes_two, Fcs.result_eq_good_iff, pppTrailer]
  · exact ⟨pppBody p, pppFrame_eq p, pppDeframe_pppBody hne⟩

/-! ## The two pops -/

/-- The vectors on which the two final `out.pop_back()` calls are made; none when the
function returns before them. -/
def pppDeframePops (input : Bytes) : List Bytes :=
  if input.length < 3 then []
  else
    let (st, atFlag) := pppDeframeLoop ⟨[], false, Fcs.init⟩ input
    if atFlag then [] else [st.out, st.out.dropLast]

/-- What the second pop leaves is what the function hands out. -/
theorem pppDeframe_of_pops {input first second : Bytes}
    (hpops : pppDeframePops input = [first, second]) :
    (pppDeframe input).2 = second.dropLast := by
  unfold pppDeframePops at hpops
  unfold pppDeframe
  split at hpops
  · cases hpops
  · rename_i hlen
    rw [if_neg hlen]
    simp only at hpops ⊢
    split at hpops
    · cases hpops
    · rename_i hstop
      cases hpops
      rw [if_neg hstop]

/-- Unstuffing takes away exactly the escapes. -/
theorem length_pppContent (input : Bytes) :
    (pppContent input).length = (input.filter (· ≠ pppEscChar)).length := by
  -- whether an escape is pending changes the bytes read, not their number
  have hscan : ∀ pending, (pppStuffing.unstuff pending input).1.length
      = (input.filter (· ≠ pppEscChar)).length := by
    have hesc : pppStuffing.esc = pppEscChar := rfl
    induction input with
    | nil => exact fun _ => rfl
    | cons c rest ih =>
      intro pending
      rw [Stuffing.unstuff, hesc]
      by_cases hc : c = pppEscChar
      · rw [if_pos hc, ih true]
        simp [hc]
      · rw [if_neg hc, List.length_cons, ih false]
        simp [hc]
  exact hscan false

/-- The pops are made on the content and on the content without its last byte. -/
theorem pppDeframePops_eq {input : Bytes} (hlen : 3 ≤ input.length)
    (hflag : pppFlagChar ∉ input) :
    pppDeframePops input = [pppContent input, (pppContent input).dropLast] := by
  unfold pppDeframePops
  rw [if_neg (Nat.not_lt.mpr hlen), pppDeframeLoop_eq input hflag]
  simp [pppContent]

theorem pppDeframePops_flag {input : Bytes} (hflag : pppFlagChar ∈ input) :
    pppDeframePops input = [] := by
  unfold pppDeframePops
  split
  · rfl
  · have hstop := pppDeframeLoop_flag input hflag ⟨[], false, Fcs.init⟩
    simp [hstop]

/-- **When both pops find a byte**: the function returns before them, or two bytes of the
input are no escapes. -/
theorem pops_nonempty_iff (input : Bytes) :
    (∀ out ∈ pppDeframePops input, out ≠ [])
      ↔ input.length < 3 ∨ pppFlagChar ∈ input
        ∨ 2 ≤ (input.filter (· ≠ pppEscChar)).length := by
  by_cases hlen : input.length < 3
  · have hnone : pppDeframePops input = [] := if_pos hlen
    simp [hnone, hlen]
  · by_cases hflag : pppFlagChar ∈ input
    · simp [pppDeframePops_flag hflag, hflag]
    · have hpops := pppDeframePops_eq (Nat.le_of_not_lt hlen) hflag
      rw [hpops, ← length_pppContent]
      constructor
      · -- the second pop decides: it sees one byte less than the first
        intro hne
        have hsecond := hne _ (List.mem_cons_of_mem _ List.mem_cons_self)
        have hpos := List.length_pos_iff.mpr hsecond
        rw [List.length_dropLast] at hpos
        omega
      · rintro (h | h | h)
        · exact absurd h hlen
        · exact absurd h hflag
        · intro out hout
          apply List.ne_nil_of_length_pos
          simp only [List.mem_cons, List.not_mem_nil, or_false] at hout
          rcases hout with rfl | rfl
          · omega
          · rw [List.length_dropLast]
            omega

/-- A line of escapes between two flags reaches the pops with nothing to pop. -/
theorem pops_empty : ¬ ∀ input, ∀ out ∈ pppDeframePops input, out ≠ [] := by
  intro h
  exact h [0x7D, 0x7D, 0x7D] [] (by decide) rfl

end ZenohProxy
