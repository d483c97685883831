import Mathlib.Tactic.Common

/-!
# Byte stuffing

A delimited stream cannot carry its own delimiter. Byte stuffing replaces the delimiter
and the escape symbol by the escape symbol and a masked copy, so that what remains never
contains the delimiter. A receiver that reads a masked copy after each escape gets the
original back.

The receiver is a scan with one bit of memory, whether an escape is pending. A run of
escapes counts as one, which no sender produces but a receiver has to answer for. A receiver
that joins late sees an end of what was sent (`suffix_stuff_iff`).
-/

/-- A stuffing scheme: the two reserved symbols and the mask, which takes a reserved
symbol to an ordinary one and back. -/
structure Stuffing (α : Type*) where
  flag : α
  esc : α
  mask : α → α
  flag_ne_esc : flag ≠ esc
  mask_mask : ∀ a, mask (mask a) = a
  mask_ne_flag : ∀ a, a = esc ∨ a = flag → mask a ≠ flag
  mask_ne_esc : ∀ a, a = esc ∨ a = flag → mask a ≠ esc

namespace Stuffing

variable {α : Type*} [DecidableEq α] (S : Stuffing α)

/-- One symbol as it goes on the line. -/
def escape (a : α) : List α :=
  if a = S.esc ∨ a = S.flag then [S.esc, S.mask a] else [a]

def stuff (xs : List α) : List α := xs.flatMap S.escape

/-- The receiver: `pending` is set after an escape. The result is what was read and
whether an escape is left over. -/
def unstuff (pending : Bool) : List α → List α × Bool
  | [] => ([], pending)
  | a :: rest =>
    -- an escape after an escape changes nothing
    if a = S.esc then unstuff true rest
    else
      let r := unstuff false rest
      ((if pending then S.mask a else a) :: r.1, r.2)

theorem stuff_nil : S.stuff [] = [] := rfl

theorem stuff_cons (a : α) (xs : List α) : S.stuff (a :: xs) = S.escape a ++ S.stuff xs := by
  rw [stuff, List.flatMap_cons, stuff]

theorem stuff_append (xs ys : List α) : S.stuff (xs ++ ys) = S.stuff xs ++ S.stuff ys := by
  rw [stuff, List.flatMap_append, stuff, stuff]

theorem flag_not_mem_escape (a : α) : S.flag ∉ S.escape a := by
  unfold escape
  split
  · rename_i hres
    have hmask : S.flag ≠ S.mask a := fun h => S.mask_ne_flag a hres h.symm
    simp [S.flag_ne_esc, hmask]
  · rename_i hord
    rw [not_or] at hord
    simpa using fun h : S.flag = a => hord.2 h.symm

/-- What goes on the line never contains the delimiter. -/
theorem flag_not_mem_stuff (xs : List α) : S.flag ∉ S.stuff xs := by
  rw [stuff, List.mem_flatMap]
  rintro ⟨a, _, ha⟩
  exact S.flag_not_mem_escape a ha

theorem length_le_stuff (xs : List α) : xs.length ≤ (S.stuff xs).length := by
  induction xs with
  | nil => exact Nat.le_refl _
  | cons a xs ih =>
    rw [stuff_cons, List.length_append, List.length_cons]
    have hone : 1 ≤ (S.escape a).length := by
      unfold escape
      split <;> simp
    omega

/-- The receiver undoes one stuffed symbol and goes on with no escape pending. -/
theorem unstuff_escape (a : α) (rest : List α) :
    S.unstuff false (S.escape a ++ rest)
      = (a :: (S.unstuff false rest).1, (S.unstuff false rest).2) := by
  unfold escape
  split
  · rename_i hres
    -- the masked copy is no escape, so it is taken for content
    have hmask := S.mask_ne_esc a hres
    simp [unstuff, hmask, S.mask_mask]
  · rename_i hord
    rw [not_or] at hord
    simp [unstuff, hord.1]

/-- **The receiver reads back what was stuffed**, with no escape left over. -/
theorem unstuff_stuff (xs : List α) : S.unstuff false (S.stuff xs) = (xs, false) := by
  induction xs with
  | nil => rfl
  | cons a xs ih => rw [stuff_cons, unstuff_escape, ih]

/-- Nothing is read, and no escape is left over, of nothing only. -/
theorem unstuff_eq_nil_iff {xs : List α} : S.unstuff false xs = ([], false) ↔ xs = [] := by
  constructor
  · intro h
    cases xs with
    | nil => rfl
    | cons x rest =>
      have hpending (xs : List α) : S.unstuff true xs ≠ ([], false) := by
        induction xs with
        | nil => simp [unstuff]
        | cons y ys ih =>
          rw [unstuff]
          split
          · exact ih
          · simp
      rw [unstuff] at h
      split at h
      · exact absurd h (hpending rest)
      · simp at h
  · rintro rfl
    rfl

/-- **How a symbol is spelled**: any number of escapes, and the symbol, masked if there are
escapes. -/
theorem unstuff_eq_cons_iff {pending left : Bool} {xs as : List α} {a : α} :
    S.unstuff pending xs = (a :: as, left) ↔
      ∃ k x rest, xs = List.replicate k S.esc ++ x :: rest ∧ x ≠ S.esc ∧
        (if pending ∨ 0 < k then S.mask x else x) = a ∧ S.unstuff false rest = (as, left) := by
  induction xs generalizing pending with
  | nil => simp [unstuff]
  | cons y ys ih =>
    rw [unstuff]
    split
    · rename_i hesc
      rw [ih]
      constructor
      · rintro ⟨k, x, rest, rfl, hx, ha, hrest⟩
        exact ⟨k + 1, x, rest, by simp [List.replicate_succ, hesc], hx, by simpa using ha, hrest⟩
      · rintro ⟨k, x, rest, heq, hx, ha, hrest⟩
        cases k with
        | zero => exact absurd ((List.head_eq_of_cons_eq heq).symm.trans hesc) hx
        | succ k =>
          rw [List.replicate_succ, List.cons_append] at heq
          exact ⟨k, x, rest, List.tail_eq_of_cons_eq heq, hx, by simpa using ha, hrest⟩
    · rename_i hord
      simp only [Prod.mk.injEq, List.cons.injEq]
      constructor
      · rintro ⟨⟨ha, has⟩, hleft⟩
        exact ⟨0, y, ys, rfl, hord, by simpa using ha, Prod.ext has hleft⟩
      · rintro ⟨k, x, rest, heq, hx, ha, hrest⟩
        cases k with
        | zero =>
          obtain ⟨rfl, rfl⟩ := List.cons_eq_cons.mp heq
          rw [hrest]
          exact ⟨⟨by simpa using ha, rfl⟩, rfl⟩
        | succ k => exact absurd (List.head_eq_of_cons_eq heq) hord

/-! ## Joining late -/

/-- **The ends of what goes on the line**: each is what some end goes out as, or it starts with
a masked copy of which the escape is missing. -/
theorem suffix_stuff_iff {s xs : List α} :
    s <:+ S.stuff xs ↔ (∃ ys, ys <:+ xs ∧ s = S.stuff ys) ∨
      ∃ x ys, x :: ys <:+ xs ∧ (x = S.esc ∨ x = S.flag) ∧ s = S.mask x :: S.stuff ys := by
  constructor
  · intro h
    induction xs with
    | nil => exact .inl ⟨[], List.suffix_rfl, List.suffix_nil.mp h⟩
    | cons a xs ih =>
      have hrest (h : s <:+ S.stuff xs) :
          (∃ ys, ys <:+ a :: xs ∧ s = S.stuff ys) ∨ ∃ x ys, x :: ys <:+ a :: xs ∧
            (x = S.esc ∨ x = S.flag) ∧ s = S.mask x :: S.stuff ys := by
        rcases ih h with ⟨ys, hys, hs⟩ | ⟨x, ys, hys, hx, hs⟩
        · exact .inl ⟨ys, hys.trans (List.suffix_cons a xs), hs⟩
        · exact .inr ⟨x, ys, hys.trans (List.suffix_cons a xs), hx, hs⟩
      have hall (h : s = S.stuff (a :: xs)) : ∃ ys, ys <:+ a :: xs ∧ s = S.stuff ys :=
        ⟨a :: xs, List.suffix_rfl, h⟩
      rw [stuff_cons, escape] at h hall
      split at h
      · rename_i hres
        rw [if_pos hres] at hall
        rcases List.suffix_cons_iff.mp h with h | h
        · exact .inl (hall h)
        rcases List.suffix_cons_iff.mp h with h | h
        · exact .inr ⟨a, xs, List.suffix_rfl, hres, h⟩
        · exact hrest h
      · rename_i hord
        rw [if_neg hord] at hall
        rcases List.suffix_cons_iff.mp h with h | h
        · exact .inl (hall h)
        · exact hrest h
  · rintro (⟨ys, ⟨before, rfl⟩, rfl⟩ | ⟨x, ys, ⟨before, rfl⟩, hx, rfl⟩)
    · exact ⟨S.stuff before, (S.stuff_append before ys).symm⟩
    · refine ⟨S.stuff before ++ [S.esc], ?_⟩
      rw [stuff_append, stuff_cons, escape, if_pos hx]
      simp

/-- A masked copy goes out as it is. -/
theorem stuff_mask_cons {x : α} (hx : x = S.esc ∨ x = S.flag) (ys : List α) :
    S.stuff (S.mask x :: ys) = S.mask x :: S.stuff ys := by
  rw [stuff_cons, escape, if_neg (not_or.mpr ⟨S.mask_ne_esc x hx, S.mask_ne_flag x hx⟩)]
  rfl

/-- A reserved symbol goes out as its masked copy behind an escape. -/
theorem stuff_reserved_cons {x : α} (hx : x = S.esc ∨ x = S.flag) (ys : List α) :
    S.stuff (x :: ys) = S.esc :: S.stuff (S.mask x :: ys) := by
  rw [stuff_mask_cons S hx, stuff_cons, escape, if_pos hx]
  rfl

theorem stuff_infix {xs ys : List α} (h : xs <:+: ys) : S.stuff xs <:+: S.stuff ys := by
  obtain ⟨before, after, rfl⟩ := h
  refine ⟨S.stuff before, S.stuff after, ?_⟩
  rw [stuff_append, stuff_append]

/-- A beginning of what goes on the line is what some beginning goes out as, or ends in an
escape. -/
theorem prefix_stuff {s xs : List α} (h : s <+: S.stuff xs) :
    (∃ ys, ys <+: xs ∧ s = S.stuff ys) ∨ ∃ ys, s = S.stuff ys ++ [S.esc] := by
  induction xs generalizing s with
  | nil => exact .inl ⟨[], List.prefix_rfl, List.prefix_nil.mp h⟩
  | cons a xs ih =>
    have hlater {s' : List α} (h : s' <+: S.stuff xs) :
        (∃ ys, ys <+: a :: xs ∧ S.escape a ++ s' = S.stuff ys) ∨
          ∃ ys, S.escape a ++ s' = S.stuff ys ++ [S.esc] := by
      rcases ih h with ⟨ys, hys, rfl⟩ | ⟨ys, rfl⟩
      · exact .inl ⟨a :: ys, List.cons_prefix_cons.mpr ⟨rfl, hys⟩, (S.stuff_cons a ys).symm⟩
      · exact .inr ⟨a :: ys, by rw [stuff_cons, List.append_assoc]⟩
    have hnothing : ∃ ys, ys <+: a :: xs ∧ [] = S.stuff ys := ⟨[], List.nil_prefix, rfl⟩
    rw [stuff_cons, escape] at h
    rw [escape] at hlater
    split at h
    · rename_i hres
      rw [if_pos hres] at hlater
      rcases List.prefix_cons_iff.mp h with rfl | ⟨s₁, rfl, h₁⟩
      · exact .inl hnothing
      rcases List.prefix_cons_iff.mp h₁ with rfl | ⟨s₂, rfl, h₂⟩
      · exact .inr ⟨[], rfl⟩
      · exact hlater h₂
    · rename_i hord
      rw [if_neg hord] at hlater
      rcases List.prefix_cons_iff.mp h with rfl | ⟨s₁, rfl, h₁⟩
      · exact .inl hnothing
      · exact hlater h₁

/-- **What a piece of the line is read as**: a piece of what was sent, of which the first symbol
may have stayed masked. -/
theorem unstuff_infix {s xs as : List α} (h : s <:+: S.stuff xs)
    (hread : S.unstuff false s = (as, false)) :
    s = S.stuff as ∧ (as <:+: xs ∨ ∃ x ys, x :: ys <:+: xs ∧ (x = S.esc ∨ x = S.flag) ∧
      as = S.mask x :: ys) := by
  obtain ⟨t, hst, htail⟩ := List.infix_iff_prefix_suffix.mp h
  have hpending (ys : List α) (hs : s = S.stuff ys ++ [S.esc]) : False := by
    have hleft : (S.unstuff false (S.stuff ys ++ [S.esc])).2 = true := by
      clear hs
      induction ys with
      | nil => simp [stuff_nil, unstuff]
      | cons a ys ih => rw [stuff_cons, List.append_assoc, unstuff_escape, ih]
    rw [← hs, hread] at hleft
    cases hleft
  rcases S.suffix_stuff_iff.mp htail with ⟨ys, hys, rfl⟩ | ⟨x, ys, hys, hx, rfl⟩
  · rcases S.prefix_stuff hst with ⟨zs, hzs, rfl⟩ | ⟨zs, hs⟩
    · rw [unstuff_stuff] at hread
      obtain rfl : zs = as := congrArg Prod.fst hread
      exact ⟨rfl, .inl (hzs.isInfix.trans hys.isInfix)⟩
    · exact (hpending zs hs).elim
  · rw [← S.stuff_mask_cons hx] at hst
    rcases S.prefix_stuff hst with ⟨zs, hzs, rfl⟩ | ⟨zs, hs⟩
    · rw [unstuff_stuff] at hread
      obtain rfl : zs = as := congrArg Prod.fst hread
      refine ⟨rfl, ?_⟩
      rcases List.prefix_cons_iff.mp hzs with rfl | ⟨rest, rfl, hrest⟩
      · exact .inl (List.nil_infix)
      · refine .inr ⟨x, rest, ?_, hx, rfl⟩
        exact (List.cons_prefix_cons.mpr ⟨rfl, hrest⟩).isInfix.trans hys.isInfix
    · exact (hpending zs hs).elim

end Stuffing
