import Mathlib.Data.Nat.Digits.Defs
import Mathlib.Tactic.Common

/-!
# Numerals

A natural number is written with the digits `0` to `9` and `a` to `f`, in a base of at most
sixteen. `numeral_eq_iff` says which numbers are written alike in two bases.
-/

namespace Numeral

/-- The character of a digit. -/
def digitChar (d : Nat) : UInt8 := UInt8.ofNat (if d < 10 then 48 + d else 87 + d)

/-- The digits of a number, the highest first. Zero has one too. -/
def highestFirst (base n : Nat) : List Nat := if n = 0 then [0] else (Nat.digits base n).reverse

/-- A number in a base. -/
def numeral (base n : Nat) : List UInt8 := (highestFirst base n).map digitChar

theorem ofDigits_highestFirst (base n : Nat) :
    Nat.ofDigits base (highestFirst base n).reverse = n := by
  unfold highestFirst
  split
  · simp [*]
  · rw [List.reverse_reverse, Nat.ofDigits_digits]

theorem lt_of_mem_highestFirst {base n d : Nat} (hlo : 1 < base) (hd : d ∈ highestFirst base n) :
    d < base := by
  unfold highestFirst at hd
  split at hd
  · obtain rfl := List.mem_singleton.mp hd
    omega
  · exact Nat.digits_lt_base hlo (List.mem_reverse.mp hd)

theorem digitChar_inj {d e : Nat} (hd : d < 16) (he : e < 16)
    (heq : digitChar d = digitChar e) : d = e := by
  have hall : ∀ d < 16, ∀ e < 16, digitChar d = digitChar e → d = e := by decide
  exact hall d hd e he heq

/-- Every character of a numeral is a digit. -/
theorem exists_of_mem_numeral {base n : Nat} (hlo : 1 < base) (hhi : base ≤ 16) {o : UInt8}
    (ho : o ∈ numeral base n) : ∃ d < 16, o = digitChar d := by
  obtain ⟨d, hd, rfl⟩ := List.mem_map.mp ho
  exact ⟨d, (lt_of_mem_highestFirst hlo hd).trans_le hhi, rfl⟩

theorem notMem_numeral {base n : Nat} (hlo : 1 < base) (hhi : base ≤ 16) {o : UInt8}
    (ho : ∀ d < 16, digitChar d ≠ o) : o ∉ numeral base n := by
  intro hmem
  obtain ⟨d, hd, rfl⟩ := exists_of_mem_numeral hlo hhi hmem
  exact ho d hd rfl

theorem digits_eq_of_map_eq : ∀ {ds es : List Nat}, (∀ d ∈ ds, d < 16) → (∀ e ∈ es, e < 16) →
    ds.map digitChar = es.map digitChar → ds = es
  | [], [], _, _, _ => rfl
  | d :: ds, e :: es, hd, he, heq => by
    obtain ⟨hhead, htail⟩ := List.cons_eq_cons.mp heq
    rw [digitChar_inj (hd d (by simp)) (he e (by simp)) hhead]
    have hds : ∀ d ∈ ds, d < 16 := fun d hmem => hd d (List.mem_cons_of_mem _ hmem)
    have hes : ∀ e ∈ es, e < 16 := fun e hmem => he e (List.mem_cons_of_mem _ hmem)
    rw [digits_eq_of_map_eq hds hes htail]

/-- The digits in two bases are the same for a number of one digit only. -/
theorem lt_of_digits_eq {b c n : Nat} (hb : 1 < b) (hbc : b < c)
    (heq : Nat.digits b n = Nat.digits c n) : n < b := by
  rcases Nat.eq_zero_or_pos n with rfl | hpos
  · omega
  rw [Nat.digits_def' hb hpos, Nat.digits_def' (by omega) hpos] at heq
  obtain ⟨hlow, hhigh⟩ := List.cons_eq_cons.mp heq
  -- the digits above the lowest stand for no less in the larger base
  have hle : n / b ≤ n / c := by
    rw [← Nat.ofDigits_digits b (n / b), ← Nat.ofDigits_digits c (n / c), hhigh]
    exact Nat.ofDigits_monotone _ (by omega)
  have hsplit : b * (n / b) = c * (n / c) := by
    have hdivb := Nat.div_add_mod n b
    have hdivc := Nat.div_add_mod n c
    omega
  have hzero : n / b = 0 := by
    by_contra hne
    have hlt : b * (n / b) < c * (n / c) := calc
      b * (n / b) < c * (n / b) := Nat.mul_lt_mul_of_pos_right hbc (Nat.pos_of_ne_zero hne)
      _ ≤ c * (n / c) := Nat.mul_le_mul_left c hle
    omega
  exact (Nat.div_eq_zero_iff_lt (by omega)).mp hzero

theorem highestFirst_eq_of_numeral_eq {b c n m : Nat} (hb : 1 < b) (hb' : b ≤ 16) (hc : 1 < c)
    (hc' : c ≤ 16) (heq : numeral b n = numeral c m) : highestFirst b n = highestFirst c m :=
  digits_eq_of_map_eq (fun _ hd => (lt_of_mem_highestFirst hb hd).trans_le hb')
    (fun _ he => (lt_of_mem_highestFirst hc he).trans_le hc') heq

theorem numeral_inj {base n m : Nat} (hlo : 1 < base) (hhi : base ≤ 16) :
    numeral base n = numeral base m ↔ n = m := by
  constructor
  · intro heq
    have hdigits := highestFirst_eq_of_numeral_eq hlo hhi hlo hhi heq
    rw [← ofDigits_highestFirst base n, hdigits, ofDigits_highestFirst]
  · rintro rfl
    rfl

/-- In two bases the numbers of one digit are written alike, and no others. -/
theorem numeral_eq_iff {b c n : Nat} (hb : 1 < b) (hbc : b < c) (hc : c ≤ 16) :
    numeral b n = numeral c n ↔ n < b := by
  constructor
  · intro heq
    have hdigits := highestFirst_eq_of_numeral_eq hb (by omega) (by omega) hc heq
    by_cases h0 : n = 0
    · omega
    · rw [highestFirst, highestFirst, if_neg h0, if_neg h0] at hdigits
      exact lt_of_digits_eq hb hbc (List.reverse_inj.mp hdigits)
  · intro hn
    by_cases h0 : n = 0
    · simp [numeral, highestFirst, h0]
    · rw [numeral, numeral, highestFirst, highestFirst, Nat.digits_of_lt b n h0 hn,
        Nat.digits_of_lt c n h0 (by omega)]

end Numeral
