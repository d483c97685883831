import Mathlib.Algebra.Group.Nat.Defs
import Mathlib.Algebra.Ring.Int.Defs
import Mathlib.Data.List.TakeWhile
import Mathlib.Tactic.Common

/-!
# Bytes, strings and integers of the program

`bytes` and `std::string` are both sequences of octets. An `int` has 32 bits: storing a
wider integer in one keeps its lowest 32 bits, read as a signed number.
-/

namespace ZenohProxy

abbrev Bytes := List UInt8

/-- A `std::string`: any octets, zero included. -/
abbrev Str := List UInt8

/-- The octets of an ASCII literal. -/
def str (s : String) : Str := s.toList.map fun c => UInt8.ofNat c.toNat

/-- What a callee sees of a string handed over as a C string: the octets before the first
zero. -/
def cStr (s : Str) : Str := s.takeWhile (· ≠ 0)

theorem cStr_of_no_nul {s : Str} (h : 0 ∉ s) : cStr s = s := by
  rw [cStr, List.takeWhile_eq_self_iff]
  intro b hb
  have hne : b ≠ 0 := fun hz => h (hz ▸ hb)
  simpa using hne

theorem cStr_no_nul (s : Str) : 0 ∉ cStr s := by
  intro h
  have := List.mem_takeWhile_imp h
  simp at this

/-- The conversion of a wider integer to `int`. -/
def toInt32 (v : Int) : Int := v.bmod (2 ^ 32)

/-- The values of an `int`. -/
def IsInt32 (v : Int) : Prop := -2 ^ 31 ≤ v ∧ v < 2 ^ 31

instance (v : Int) : Decidable (IsInt32 v) := by unfold IsInt32; infer_instance

theorem isInt32_toInt32 (v : Int) : IsInt32 (toInt32 v) := by
  have hlo := Int.le_bmod (x := v) (m := 2 ^ 32) (by decide)
  have hhi := Int.bmod_lt (x := v) (m := 2 ^ 32) (by decide)
  unfold toInt32 IsInt32
  omega

theorem toInt32_eq_iff (v : Int) : toInt32 v = v ↔ IsInt32 v := by
  unfold toInt32 IsInt32
  constructor
  · intro h
    have hlo := Int.le_bmod (x := v) (m := 2 ^ 32) (by decide)
    have hhi := Int.bmod_lt (x := v) (m := 2 ^ 32) (by decide)
    omega
  · intro ⟨hlo, hhi⟩
    exact Int.bmod_eq_of_le (by omega) (by omega)

theorem toInt32_of_isInt32 {v : Int} (h : IsInt32 v) : toInt32 v = v :=
  (toInt32_eq_iff v).mpr h

/-- Only the lowest 32 bits count. -/
theorem toInt32_emod (v : Int) : toInt32 (v % 2 ^ 32) = toInt32 v := Int.emod_bmod v (2 ^ 32)

/-- The conversion of an `int` to `uint32_t` goes back to the lowest 32 bits. -/
theorem emod_toInt32 (v : Int) : toInt32 v % 2 ^ 32 = v % 2 ^ 32 := Int.bmod_emod

/-- The values of a length as an `int`. -/
theorem toInt32_natCast (len : Nat) : toInt32 len
    = if len % 2 ^ 32 < 2 ^ 31 then ((len % 2 ^ 32 : Nat) : Int)
      else ((len % 2 ^ 32 : Nat) : Int) - 2 ^ 32 := by
  rw [toInt32, Int.bmod_def]
  split <;> split <;> omega

end ZenohProxy
