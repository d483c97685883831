import ZenohProxy.Lib.Crc

/-!
# A reflected checksum bit by bit

`Lib/Crc.lean` puts whole bytes into the register. Here a message is a list of bits, each
added to the lowest place of the register before it shifts, and the facts an error check
is chosen for are proved for messages of any length:

* `feed_pack`: up to a register's width of bits enter at once;
* `feed_xor`: the register is linear in message and start value;
* `bits_injective`: a shift loses nothing when the polynomial has its top bit;
* `burst_detected`: errors within one register's width change the final register;
* `parity_feed`: with a polynomial of odd weight, so does an odd number of errors.
-/

namespace Crc

variable {w : Nat}

/-- A message bit in the lowest place of a register. -/
def lowBit (b : Bool) : BitVec w := (BitVec.ofBool b).setWidth w

def feedBit (poly r : BitVec w) (b : Bool) : BitVec w := bitStep poly (r ^^^ lowBit b)

/-- A message goes through the register. -/
def feed (poly r : BitVec w) (bs : List Bool) : BitVec w := bs.foldl (feedBit poly) r

/-- A run of bits as one word, the first in the lowest place. -/
def pack : List Bool → BitVec w
  | [] => 0#w
  | b :: bs => lowBit b ^^^ (pack bs <<< 1)

/-- The bits of a word, lowest first. -/
def lsbFirst {n : Nat} (x : BitVec n) : List Bool := (List.range n).map x.getLsbD

theorem length_lsbFirst {n : Nat} (x : BitVec n) : (lsbFirst x).length = n := by
  rw [lsbFirst, List.length_map, List.length_range]

theorem lsbFirst_injective {n : Nat} {x y : BitVec n} (h : lsbFirst x = lsbFirst y) :
    x = y := by
  apply BitVec.eq_of_getLsbD_eq
  intro i hi
  have hget := congrArg (fun l : List Bool => l[i]?) h
  simpa [lsbFirst, hi] using hget

theorem feed_append (poly r : BitVec w) (xs ys : List Bool) :
    feed poly r (xs ++ ys) = feed poly (feed poly r xs) ys := List.foldl_append

@[simp] theorem getLsbD_lowBit (b : Bool) (i : Nat) :
    (lowBit b : BitVec w).getLsbD i = (decide (i < w) && (decide (i = 0) && b)) := by
  rw [lowBit, BitVec.getLsbD_setWidth, BitVec.getLsbD_ofBool]

theorem getLsbD_pack (bs : List Bool) (i : Nat) :
    (pack bs : BitVec w).getLsbD i = (decide (i < w) && bs.getD i false) := by
  induction bs generalizing i with
  | nil => simp [pack]
  | cons b bs ih =>
    rw [pack, BitVec.getLsbD_xor, getLsbD_lowBit, BitVec.getLsbD_shiftLeft, ih]
    cases i with
    | zero => simp
    | succ i =>
      by_cases hi : i + 1 < w
      · have hlt : i < w := Nat.lt_of_succ_lt hi
        simp [hi, hlt]
      · simp [hi]

/-- A register's width of bits is read back from the word they make. -/
theorem pack_eq_zero {bs : List Bool} (hlen : bs.length ≤ w)
    (hzero : (pack bs : BitVec w) = 0#w) : ∀ b ∈ bs, b = false := by
  intro b hb
  obtain ⟨i, hi, hget⟩ := List.getElem_of_mem hb
  have hbit := getLsbD_pack (w := w) bs i
  rw [hzero] at hbit
  have hiw : i < w := Nat.lt_of_lt_of_le hi hlen
  simpa [hiw, hi, hget] using hbit.symm

/-- The message bit decides together with the lowest place of the register. -/
theorem feedBit_eq (poly r : BitVec w) (b : Bool) (hw : 0 < w) :
    feedBit poly r b = if r.getLsbD 0 ^^ b then (r >>> 1) ^^^ poly else r >>> 1 := by
  have hlow : (r ^^^ lowBit b).getLsbD 0 = (r.getLsbD 0 ^^ b) := by
    rw [BitVec.getLsbD_xor, getLsbD_lowBit]
    simp [hw]
  have hshift : (r ^^^ lowBit b) >>> 1 = r >>> 1 := by
    apply BitVec.eq_of_getLsbD_eq
    intro i hi
    rw [BitVec.getLsbD_ushiftRight, BitVec.getLsbD_xor, getLsbD_lowBit,
      BitVec.getLsbD_ushiftRight]
    simp
  rw [feedBit, bitStep, hlow, hshift]

/-! ## Words at once -/

/-- A word with its top place free comes back from one place up in one shift. -/
theorem bitStep_shiftLeft (poly x : BitVec w) (htop : x.getLsbD (w - 1) = false) :
    bitStep poly (x <<< 1) = x := by
  have hlow : (x <<< 1).getLsbD 0 = false := by simp
  rw [bitStep, hlow]
  apply BitVec.eq_of_getLsbD_eq
  intro i hi
  simp only [Bool.false_eq_true, if_false, BitVec.getLsbD_ushiftRight,
    BitVec.getLsbD_shiftLeft]
  by_cases hlast : 1 + i < w
  · simp [hlast]
  · have hi' : i = w - 1 := by omega
    subst hi'
    simp [hlast, htop]

/-- **Up to a register's width of message bits enter the register at once.** -/
theorem feed_pack (poly r : BitVec w) (bs : List Bool) (hlen : bs.length ≤ w) :
    feed poly r bs = bits poly bs.length (r ^^^ pack bs) := by
  induction bs generalizing r with
  | nil => simp [feed, bits, pack]
  | cons b bs ih =>
    have hshort : bs.length ≤ w := Nat.le_of_succ_le hlen
    -- the bits still to come have the top place free, and ride along above the first
    have htop : (pack bs : BitVec w).getLsbD (w - 1) = false := by
      have hpast : bs[w - 1]? = none := List.getElem?_eq_none (Nat.le_sub_one_of_lt hlen)
      simp [getLsbD_pack, hpast]
    have hsplit : bitStep poly (r ^^^ pack (b :: bs)) = feedBit poly r b ^^^ pack bs := by
      rw [pack, ← BitVec.xor_assoc, bitStep_xor, bitStep_shiftLeft poly _ htop, feedBit]
    show feed poly (feedBit poly r b) bs = bits poly bs.length (bitStep poly (r ^^^ pack (b :: bs)))
    rw [ih _ hshort, hsplit]

/-- **Eight bits, lowest first, are one byte step.** -/
theorem feed_lsbFirst (poly r : BitVec w) (b : BitVec 8) (hw : 8 ≤ w) :
    feed poly r (lsbFirst b) = byteStep poly r b := by
  have hlen := length_lsbFirst b
  have hpack : (pack (lsbFirst b) : BitVec w) = b.setWidth w := by
    apply BitVec.eq_of_getLsbD_eq
    intro i hi
    rw [getLsbD_pack, BitVec.getLsbD_setWidth, lsbFirst]
    by_cases h8 : i < 8
    · simp [h8]
    · rw [BitVec.getLsbD_of_ge b i (Nat.le_of_not_lt h8)]
      simp [h8]
  rw [feed_pack poly r _ (by rw [hlen]; exact hw), hlen, hpack, byteStep]

/-! ## Linearity -/

theorem lowBit_xor (a b : Bool) : (lowBit (a ^^ b) : BitVec w) = lowBit a ^^^ lowBit b := by
  apply BitVec.eq_of_getLsbD_eq
  intro i hi
  rw [BitVec.getLsbD_xor, getLsbD_lowBit, getLsbD_lowBit, getLsbD_lowBit]
  cases decide (i < w) <;> cases decide (i = 0) <;> cases a <;> cases b <;> rfl

theorem feedBit_xor (poly r s : BitVec w) (a b : Bool) :
    feedBit poly (r ^^^ s) (a ^^ b) = feedBit poly r a ^^^ feedBit poly s b := by
  rw [feedBit, feedBit, feedBit, ← bitStep_xor, lowBit_xor]
  congr 1
  ac_rfl

/-- The places where two messages differ. -/
def errors (xs ys : List Bool) : List Bool := List.zipWith (· ^^ ·) xs ys

theorem eq_of_no_errors {xs ys : List Bool} (hlen : xs.length = ys.length)
    (hnone : ∀ e ∈ errors xs ys, e = false) : xs = ys := by
  induction xs generalizing ys with
  | nil => exact (List.length_eq_zero_iff.mp hlen.symm).symm
  | cons x xs ih =>
    cases ys with
    | nil => cases hlen
    | cons y ys =>
      have hmem : errors (x :: xs) (y :: ys) = (x ^^ y) :: errors xs ys := rfl
      rw [hmem] at hnone
      have hhead : x = y := by simpa using hnone _ List.mem_cons_self
      rw [hhead, ih (Nat.succ.inj hlen) fun e he => hnone e (List.mem_cons_of_mem _ he)]

theorem feed_xor (poly r s : BitVec w) {xs ys : List Bool} (hlen : xs.length = ys.length) :
    feed poly (r ^^^ s) (errors xs ys) = feed poly r xs ^^^ feed poly s ys := by
  induction xs generalizing r s ys with
  | nil =>
    cases ys with
    | nil => rfl
    | cons y ys => cases hlen
  | cons x xs ih =>
    cases ys with
    | nil => cases hlen
    | cons y ys =>
      show feed poly (feedBit poly (r ^^^ s) (x ^^ y)) (errors xs ys) = _
      rw [feedBit_xor]
      apply ih
      exact Nat.succ.inj hlen

/-- Two messages that leave the same register differ by one that leaves a clear register
clear. -/
theorem feed_errors (poly r : BitVec w) {xs ys : List Bool} (hlen : xs.length = ys.length)
    (heq : feed poly r xs = feed poly r ys) : feed poly 0#w (errors xs ys) = 0#w := by
  have h := feed_xor poly r r hlen
  rw [BitVec.xor_self, heq, BitVec.xor_self] at h
  exact h

/-! ## Bursts -/

/-- The register at which a message of clear bits arrives is only shifted. -/
theorem feed_replicate_false (poly r : BitVec w) (n : Nat) :
    feed poly r (List.replicate n false) = bits poly n r := by
  induction n generalizing r with
  | zero => rfl
  | succ n ih =>
    have hlow : (lowBit false : BitVec w) = 0#w := by simp [lowBit]
    show feed poly (feedBit poly r false) (List.replicate n false) = _
    rw [ih, feedBit, hlow, BitVec.xor_zero, bits]

theorem bitStep_injective {poly : BitVec w} (htop : poly.msb = true) :
    Function.Injective (bitStep poly) := by
  intro a b hab
  have hpos : 0 < w := by
    by_contra hw
    have hw0 : w = 0 := by omega
    subst hw0
    simp [BitVec.msb, BitVec.getMsbD] at htop
  -- the top bit of the result tells which bit fell out
  have hout : ∀ x : BitVec w, (bitStep poly x).getLsbD (w - 1) = x.getLsbD 0 := by
    intro x
    have hlast : x.getLsbD (1 + (w - 1)) = false := BitVec.getLsbD_of_ge x _ (by omega)
    rw [BitVec.msb_eq_getLsbD_last] at htop
    unfold bitStep
    cases hx : x.getLsbD 0
    · simp [BitVec.getLsbD_ushiftRight, hlast]
    · simp [BitVec.getLsbD_ushiftRight, hlast, htop]
  have hlow : a.getLsbD 0 = b.getLsbD 0 := by rw [← hout a, ← hout b, hab]
  have hrest : a >>> 1 = b >>> 1 := by
    unfold bitStep at hab
    rw [hlow] at hab
    split at hab
    · exact BitVec.xor_left_inj poly |>.mp hab
    · exact hab
  apply BitVec.eq_of_getLsbD_eq
  intro i hi
  cases i with
  | zero => exact hlow
  | succ i =>
    have hbit := congrArg (fun x => x.getLsbD i) hrest
    simpa [BitVec.getLsbD_ushiftRight, Nat.add_comm] using hbit

theorem bits_injective {poly : BitVec w} (htop : poly.msb = true) (n : Nat) :
    Function.Injective (bits poly n) := by
  induction n with
  | zero => exact fun _ _ h => h
  | succ n ih => exact fun _ _ h => bitStep_injective htop (ih h)

theorem bits_zero (poly : BitVec w) (n : Nat) : bits poly n 0#w = 0#w := by
  rw [bits_low_zero poly n 0#w (by simp)]
  simp

theorem bits_eq_zero {poly : BitVec w} (htop : poly.msb = true) {n : Nat} {r : BitVec w}
    (h : bits poly n r = 0#w) : r = 0#w :=
  bits_injective htop n (h.trans (bits_zero poly n).symm)

/-- A piece of the message without set bits is a run of clear ones. -/
theorem eq_replicate_false {bs : List Bool} (h : ∀ i : Nat, bs[i]? ≠ some true) :
    bs = List.replicate bs.length false := by
  apply List.eq_replicate_iff.mpr
  refine ⟨rfl, fun b hb => ?_⟩
  obtain ⟨i, hi, hget⟩ := List.getElem_of_mem hb
  have hne := h i
  rw [List.getElem?_eq_getElem hi, hget] at hne
  simpa using hne

/-- **A burst is detected**: a message whose set bits lie within one register's width of
each other leaves a clear register clear only if it has none. -/
theorem burst_detected {poly : BitVec w} (htop : poly.msb = true) {bs : List Bool} {k : Nat}
    (hin : ∀ i : Nat, bs[i]? = some true → k ≤ i ∧ i < k + w) (hzero : feed poly 0#w bs = 0#w) :
    ∀ b ∈ bs, b = false := by
  have hsplit : bs = bs.take k ++ ((bs.drop k).take w ++ bs.drop (k + w)) := by
    rw [← List.drop_drop, List.take_append_drop, List.take_append_drop]
  -- nothing is set before the window, nor after it
  have hbefore : bs.take k = List.replicate (bs.take k).length false := by
    apply eq_replicate_false
    intro i hi
    rw [List.getElem?_take] at hi
    split at hi
    · have := (hin i hi).1
      omega
    · cases hi
  have hafter : bs.drop (k + w) = List.replicate (bs.drop (k + w)).length false := by
    apply eq_replicate_false
    intro i hi
    rw [List.getElem?_drop] at hi
    have := (hin _ hi).2
    omega
  have hlen : ((bs.drop k).take w).length ≤ w := by
    rw [List.length_take]
    exact Nat.min_le_left _ _
  have hclear : ∀ b ∈ (bs.drop k).take w, b = false := by
    rw [hsplit, hbefore, hafter, feed_append, feed_append, feed_replicate_false,
      feed_replicate_false, bits_zero, feed_pack poly _ _ hlen, BitVec.zero_xor] at hzero
    exact pack_eq_zero hlen (bits_eq_zero htop (bits_eq_zero htop hzero))
  intro b hb
  rw [hsplit, List.mem_append, List.mem_append] at hb
  rcases hb with hb | hb | hb
  · rw [hbefore] at hb
    exact List.eq_of_mem_replicate hb
  · exact hclear b hb
  · rw [hafter] at hb
    exact List.eq_of_mem_replicate hb

/-! ## Odd numbers of errors -/

/-- The parity of the lowest `n` bits. -/
def parityBelow (r : BitVec w) : Nat → Bool
  | 0 => false
  | n + 1 => parityBelow r n ^^ r.getLsbD n

/-- Whether an odd number of bits is set. -/
def parity (r : BitVec w) : Bool := parityBelow r w

theorem parityBelow_xor (a b : BitVec w) (n : Nat) :
    parityBelow (a ^^^ b) n = (parityBelow a n ^^ parityBelow b n) := by
  induction n with
  | zero => rfl
  | succ n ih =>
    rw [parityBelow, parityBelow, parityBelow, ih, BitVec.getLsbD_xor, Bool.xor_assoc,
      Bool.xor_assoc, Bool.xor_left_comm (parityBelow b n)]

theorem parity_xor (a b : BitVec w) : parity (a ^^^ b) = (parity a ^^ parity b) :=
  parityBelow_xor a b w

/-- Moving down takes the lowest bit out of the parity. -/
theorem parityBelow_shift (r : BitVec w) (n : Nat) :
    parityBelow (r >>> 1) n = (parityBelow r (n + 1) ^^ r.getLsbD 0) := by
  induction n with
  | zero => simp [parityBelow]
  | succ n ih =>
    have htop : parityBelow r (n + 1 + 1) = (parityBelow r (n + 1) ^^ r.getLsbD (n + 1)) := rfl
    rw [parityBelow, ih, htop, BitVec.getLsbD_ushiftRight, Nat.add_comm 1 n, Bool.xor_assoc,
      Bool.xor_assoc, Bool.xor_comm (r.getLsbD 0)]

theorem parity_shift (r : BitVec w) : parity (r >>> 1) = (parity r ^^ r.getLsbD 0) := by
  rw [parity, parityBelow_shift, parityBelow, BitVec.getLsbD_of_ge r w (Nat.le_refl w), parity]
  simp

/-- A polynomial of odd weight keeps the parity of the register. -/
theorem parity_bitStep {poly : BitVec w} (hodd : parity poly = true) (r : BitVec w) :
    parity (bitStep poly r) = parity r := by
  unfold bitStep
  cases hr : r.getLsbD 0
  · simp [parity_shift, hr]
  · -- the one that fell out is made up for by the polynomial
    simp [parity_xor, parity_shift, hr, hodd]

theorem parityBelow_lowBit (b : Bool) {n : Nat} (hn : n < w) :
    parityBelow (lowBit b : BitVec w) (n + 1) = b := by
  induction n with
  | zero =>
    rw [parityBelow, parityBelow, getLsbD_lowBit]
    simp [hn]
  | succ n ih =>
    rw [parityBelow, ih (Nat.lt_of_succ_lt hn), getLsbD_lowBit]
    simp

/-- One message bit flips the parity when it is set. -/
theorem parity_feedBit {poly : BitVec w} (hodd : parity poly = true) (r : BitVec w) (b : Bool) :
    parity (feedBit poly r b) = (parity r ^^ b) := by
  have hlow : parity (lowBit b : BitVec w) = b := by
    cases w with
    | zero => simp [parity, parityBelow] at hodd
    | succ n => exact parityBelow_lowBit b (Nat.lt_succ_self n)
  rw [feedBit, parity_bitStep hodd, parity_xor, hlow]

/-- **The register's parity counts the bits that went in.** -/
theorem parity_feed {poly : BitVec w} (hodd : parity poly = true) (r : BitVec w)
    (bs : List Bool) : parity (feed poly r bs) = (parity r ^^ decide (bs.count true % 2 = 1)) := by
  induction bs generalizing r with
  | nil => simp [feed]
  | cons b bs ih =>
    show parity (feed poly (feedBit poly r b) bs) = _
    rw [ih, parity_feedBit hodd]
    cases b with
    | false => simp
    | true =>
      rw [List.count_cons_self]
      by_cases hc : bs.count true % 2 = 1
      · have hn : ¬ (bs.count true + 1) % 2 = 1 := by omega
        simp [hc, hn]
      · have hn : (bs.count true + 1) % 2 = 1 := by omega
        simp [hc, hn]

/-- **An odd number of errors is detected.** -/
theorem even_of_feed_zero {poly : BitVec w} (hodd : parity poly = true) {bs : List Bool}
    (hzero : feed poly 0#w bs = 0#w) : bs.count true % 2 = 0 := by
  have hpar := parity_feed hodd 0#w bs
  rw [hzero] at hpar
  by_contra hne
  have hone : bs.count true % 2 = 1 := by omega
  rw [hone] at hpar
  simp at hpar

end Crc
