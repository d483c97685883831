import Mathlib.Algebra.BigOperators.Group.List.Basic
import Mathlib.Algebra.Ring.Int.Defs
import Mathlib.Logic.Nontrivial.Basic
import Mathlib.Tactic.Common

/-!
# Transfers in parts

A call that moves bytes may move only some of them, and is then made again for the rest: each
call gives a count, and a count that is not positive is a failure. `wanted` is how many of the
counts a transfer has use for, and `Completes` says that they are enough.

What arrives in parts is written part by part: `writes_pair` is the case in which each part
goes where the one before has ended, and `writes_untouched` says that no other place changes.
-/

namespace Transfers

/-! ## Counts -/

/-- The counts up to the one with which `n` is reached, or the first that is not positive. -/
def wanted (n : ℤ) : List ℤ → List ℤ
  | [] => []
  | c :: cs => c :: if 0 < c ∧ c < n then wanted (n - c) cs else []

/-- The counts come to `n`, without a failure. -/
def Completes (n : ℤ) (cs : List ℤ) : Prop :=
  (∀ c ∈ wanted n cs, 0 < c) ∧ wanted n cs ≠ [] ∧ n ≤ (wanted n cs).sum

instance (n : ℤ) (cs : List ℤ) : Decidable (Completes n cs) := by
  unfold Completes
  infer_instance

variable {n c : ℤ} {cs : List ℤ}

theorem wanted_cons_of_lt (hpos : 0 < c) (hlt : c < n) :
    wanted n (c :: cs) = c :: wanted (n - c) cs := by
  rw [wanted, if_pos ⟨hpos, hlt⟩]

theorem wanted_cons_of_not (h : ¬ (0 < c ∧ c < n)) : wanted n (c :: cs) = [c] := by
  rw [wanted, if_neg h]

theorem not_completes_nil : ¬ Completes n [] := fun h => h.2.1 rfl

theorem not_completes_of_nonpos (hc : c ≤ 0) : ¬ Completes n (c :: cs) := by
  intro h
  have hpos := h.1 c (by rw [wanted]; exact List.mem_cons_self)
  omega

theorem completes_of_le (hpos : 0 < c) (hle : n ≤ c) : Completes n (c :: cs) := by
  rw [Completes, wanted_cons_of_not (by omega)]
  simpa using ⟨hpos, hle⟩

/-- A count that is not enough leaves the rest to the others. -/
theorem completes_cons_iff (hpos : 0 < c) (hlt : c < n) :
    Completes n (c :: cs) ↔ Completes (n - c) cs := by
  rw [Completes, Completes, wanted_cons_of_lt hpos hlt, List.forall_mem_cons, List.sum_cons]
  constructor
  · rintro ⟨⟨-, hall⟩, -, htotal⟩
    refine ⟨hall, ?_, by omega⟩
    intro hnil
    rw [hnil, List.sum_nil] at htotal
    omega
  · rintro ⟨hall, -, htotal⟩
    exact ⟨⟨hpos, hall⟩, List.cons_ne_nil _ _, by omega⟩

/-! ## A memory that is written in parts -/

section

variable {α : Type*} {mem : ℤ → α} {start p : ℤ} {xs ys : List α}

/-- The memory with `xs` from `start` on. -/
def blit (mem : ℤ → α) (start : ℤ) (xs : List α) : ℤ → α := fun p =>
  if start ≤ p then (xs[(p - start).toNat]?).getD (mem p) else mem p

/-- The parts are written one after the other. -/
def writes (mem : ℤ → α) (parts : List (ℤ × List α)) : ℤ → α :=
  parts.foldl (fun mem part => blit mem part.1 part.2) mem

theorem blit_outside (h : p < start ∨ start + xs.length ≤ p) : blit mem start xs p = mem p := by
  rw [blit]
  split
  · rw [List.getElem?_eq_none (by omega), Option.getD_none]
  · rfl

theorem blit_inside {i : ℕ} (hi : i < xs.length) : blit mem start xs (start + i) = xs[i] := by
  rw [blit, if_pos (by omega), show (start + i - start).toNat = i by omega,
    List.getElem?_eq_getElem hi, Option.getD_some]

theorem blit_append (mem : ℤ → α) (start : ℤ) (xs ys : List α) :
    blit (blit mem start xs) (start + xs.length) ys = blit mem start (xs ++ ys) := by
  funext p
  by_cases hxs : p < start + xs.length
  · rw [blit_outside (.inl hxs), blit, blit]
    split
    · rw [List.getElem?_append_left (by omega)]
    · rfl
  · have hys : (p - (start + xs.length)).toNat = (p - start).toNat - xs.length := by omega
    rw [blit, if_pos (by omega), blit_outside (.inr (by omega)), blit, if_pos (by omega),
      List.getElem?_append_right (by omega), hys]

/-- The second of two parts goes where the first has ended. -/
theorem writes_pair (mem : ℤ → α) (xs ys : List α) :
    writes mem [(0, xs), (xs.length, ys)] = blit mem 0 (xs ++ ys) := by
  rw [← blit_append, zero_add]
  rfl

theorem writes_untouched {parts : List (ℤ × List α)}
    (h : ∀ part ∈ parts, p < part.1 ∨ part.1 + part.2.length ≤ p) : writes mem parts p = mem p := by
  induction parts generalizing mem with
  | nil => rfl
  | cons part parts ih =>
    obtain ⟨hhere, hrest⟩ := List.forall_mem_cons.mp h
    exact (ih hrest).trans (blit_outside hhere)

/-- Parts that leave a place of `zs` alone do not make any memory hold `zs`. -/
theorem writes_ne_blit [Nontrivial α] {parts : List (ℤ × List α)} {zs : List α} {i : ℕ}
    (hi : i < zs.length) (h : ∀ part ∈ parts, i < part.1 ∨ part.1 + part.2.length ≤ i) :
    ∃ mem, writes mem parts ≠ blit mem 0 zs := by
  obtain ⟨x, hx⟩ := exists_ne zs[i]
  refine ⟨fun _ => x, fun heq => hx ?_⟩
  have hplace := congrFun heq i
  rwa [writes_untouched h, ← zero_add (i : ℤ), blit_inside hi] at hplace

end

end Transfers
