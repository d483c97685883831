import Mathlib.Tactic.Common

/-!
# Reflected shift-register checksums

A reflected CRC keeps a register of `w` bits. A message bit is added to the lowest bit,
the register moves down one place, and the polynomial is added when a one fell out. This
module develops that register over any width and polynomial:

* `bits_xor`: the shift is linear in exclusive or;
* `bits_low_zero`: while zeros fall out, the register only moves down;
* `byteStep_table`: one byte is one table lookup and a move by eight places, which is what
  a table-driven implementation computes;
* `word_absorb`: sixteen message bits, low byte first, enter the register at once.
-/

namespace Crc

variable {w : Nat}

/-- One shift of the register: the polynomial is added when a one falls out. -/
def bitStep (poly r : BitVec w) : BitVec w :=
  if r.getLsbD 0 then (r >>> 1) ^^^ poly else r >>> 1

/-- `n` shifts of the register. -/
def bits (poly : BitVec w) : Nat → BitVec w → BitVec w
  | 0, r => r
  | n + 1, r => bits poly n (bitStep poly r)

/-- A message byte, lowest bit first: it is added to the register, which is then shifted
eight times. -/
def byteStep (poly r : BitVec w) (b : BitVec 8) : BitVec w :=
  bits poly 8 (r ^^^ b.setWidth w)

/-! ## Linearity -/

theorem bitStep_xor (poly a b : BitVec w) :
    bitStep poly (a ^^^ b) = bitStep poly a ^^^ bitStep poly b := by
  unfold bitStep
  simp only [BitVec.getLsbD_xor, BitVec.ushiftRight_xor_distrib]
  cases a.getLsbD 0 <;> cases b.getLsbD 0
  · simp
  · simp [BitVec.xor_assoc]
  · simp only [Bool.bne_false, if_true, Bool.false_eq_true, if_false]
    ac_rfl
  · -- both ones fall out: the two polynomials cancel
    simp only [bne_self_eq_false, Bool.false_eq_true, if_false, if_true]
    rw [BitVec.xor_assoc (a >>> 1) poly, ← BitVec.xor_assoc poly (b >>> 1) poly,
      BitVec.xor_comm poly (b >>> 1), BitVec.xor_assoc (b >>> 1) poly poly, BitVec.xor_self,
      BitVec.xor_zero]

theorem bits_xor (poly : BitVec w) (n : Nat) (a b : BitVec w) :
    bits poly n (a ^^^ b) = bits poly n a ^^^ bits poly n b := by
  induction n generalizing a b with
  | zero => rfl
  | succ n ih => rw [bits, bits, bits, bitStep_xor, ih]

theorem bits_add (poly : BitVec w) (m n : Nat) (r : BitVec w) :
    bits poly (m + n) r = bits poly n (bits poly m r) := by
  induction m generalizing r with
  | zero => rw [Nat.zero_add, bits]
  | succ m ih => rw [Nat.succ_add, bits, bits, ih]

/-! ## Zeros falling out -/

/-- A register whose low `n` bits are clear only moves down through `n` shifts. -/
theorem bits_low_zero (poly : BitVec w) (n : Nat) (r : BitVec w)
    (hlow : ∀ i, i < n → r.getLsbD i = false) : bits poly n r = r >>> n := by
  induction n generalizing r with
  | zero => simp [bits]
  | succ n ih =>
    -- the lowest bit is clear, so no polynomial is added
    have hstep : bitStep poly r = r >>> 1 := by
      rw [bitStep, hlow 0 (Nat.succ_pos n)]
      simp
    rw [bits, hstep, ih, ← BitVec.shiftRight_add, Nat.add_comm]
    intro i hi
    rw [BitVec.getLsbD_ushiftRight]
    exact hlow (1 + i) (by omega)

/-- The register splits into its low eight bits and the rest. -/
theorem split_low (r : BitVec w) :
    r = ((r.setWidth 8).setWidth w) ^^^ ((r >>> 8) <<< 8) := by
  apply BitVec.eq_of_getLsbD_eq
  intro i hi
  simp only [BitVec.getLsbD_xor, BitVec.getLsbD_setWidth, BitVec.getLsbD_shiftLeft,
    BitVec.getLsbD_ushiftRight, hi, decide_true, Bool.true_and]
  by_cases h8 : i < 8
  · simp [h8]
  · have hcancel : 8 + (i - 8) = i := by omega
    simp [h8, hcancel]

/-- Eight shifts move the part above the low byte down by eight places. -/
theorem bits_high (poly r : BitVec w) : bits poly 8 ((r >>> 8) <<< 8) = r >>> 8 := by
  rw [bits_low_zero]
  · apply BitVec.eq_of_getLsbD_eq
    intro i hi
    simp only [BitVec.getLsbD_ushiftRight, BitVec.getLsbD_shiftLeft]
    -- a bit from beyond the register is zero on both sides
    by_cases hw : 8 + i < w
    · simp [hw]
    · rw [BitVec.getLsbD_of_ge r (8 + i) (by omega)]
      simp [hw]
  · intro i hi
    simp [BitVec.getLsbD_shiftLeft, hi]

/-! ## The table and the word -/

/-- **A byte at a time from a table**: the entry of the register's low byte plus the
message byte, added to the register moved down by eight places. -/
theorem byteStep_table (poly r : BitVec w) (b : BitVec 8) :
    byteStep poly r b = (r >>> 8) ^^^ bits poly 8 ((r.setWidth 8 ^^^ b).setWidth w) := by
  -- the message byte only meets the low byte of the register
  have hsum : r ^^^ b.setWidth w
      = ((r.setWidth 8 ^^^ b).setWidth w) ^^^ ((r >>> 8) <<< 8) := by
    conv_lhs => rw [split_low r]
    rw [BitVec.setWidth_xor]
    ac_rfl
  rw [byteStep, hsum, bits_xor, bits_high, BitVec.xor_comm]

/-- **Two bytes at once**: the low byte and then the high byte of a word enter the
register as the whole word added to it. -/
theorem word_absorb (poly r m : BitVec 16) :
    byteStep poly (byteStep poly r (m.setWidth 8)) ((m >>> 8).setWidth 8)
      = bits poly 16 (r ^^^ m) := by
  have hhigh : ((m >>> 8).setWidth 8).setWidth 16 = m >>> 8 := by
    apply BitVec.eq_of_getLsbD_eq
    intro i hi
    simp only [BitVec.getLsbD_setWidth, BitVec.getLsbD_ushiftRight]
    by_cases h8 : i < 8
    · simp [h8, hi]
    · rw [BitVec.getLsbD_of_ge m (8 + i) (by omega)]
      simp
  have hsum : r ^^^ m = (r ^^^ (m.setWidth 8).setWidth 16) ^^^ ((m >>> 8) <<< 8) := by
    conv_lhs => rw [split_low m]
    ac_rfl
  -- the high byte rides along untouched while the low byte goes through
  rw [hsum, bits_add poly 8 8, bits_xor, bits_high, byteStep, byteStep, hhigh]

end Crc
