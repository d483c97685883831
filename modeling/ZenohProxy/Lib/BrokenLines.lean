import Mathlib.Data.List.Forall2
import ZenohProxy.Lib.Segments

/-!
# Lines that are cut and broken

What the splitter of `Segments` makes of a stream of lines when it drops what it has kept at
moments of its own (cuts), and when the lines themselves come without their ends.

* `split_lines`: of whole lines it hands over an end of each;
* `split_broken`: of broken ones, each opened by a delimiter, it hands over in order contiguous
  pieces, at most one of each that is not empty. A piece is never put together from two lines.
-/

namespace Segments

variable {α : Type*}

/-! ## Pieces in order -/

/-- The segments that are not empty. -/
def filled (segs : List (List α)) : List (List α) := segs.filter (· ≠ [])

/-- Pieces of some lines: in order, at most one of each. -/
abbrev Pieces (segs lines : List (List α)) : Prop :=
  List.SublistForall₂ (fun seg line => seg <:+: line) segs lines

theorem Pieces.widen {segs lines : List (List α)} {l l' : List α} (hl : l <:+: l')
    (h : Pieces segs (l :: lines)) : Pieces segs (l' :: lines) := by
  cases h with
  | nil => exact .nil
  | cons hseg hrest => exact .cons (hseg.trans hl) hrest
  | cons_right hrest => exact .cons_right hrest

theorem Pieces.skip {segs lines : List (List α)} {l : List α} (l' : List α)
    (h : Pieces segs (l :: lines)) : Pieces segs (l :: l' :: lines) := by
  cases h with
  | nil => exact .nil
  | cons hseg hrest => exact .cons hseg (.cons_right hrest)
  | cons_right hrest => exact .cons_right (.cons_right hrest)

theorem Pieces.cons_filled {segs lines : List (List α)} {seg l : List α} (hseg : seg <:+: l)
    (h : Pieces (filled segs) lines) : Pieces (filled (seg :: segs)) (l :: lines) := by
  by_cases hempty : seg = []
  · rw [filled, List.filter_cons_of_neg (by simpa using hempty)]
    exact .cons_right h
  · rw [filled, List.filter_cons_of_pos (by simpa using hempty)]
    exact .cons hseg h

/-- There is no piece of an empty line. -/
theorem Pieces.drop_empty {segs lines : List (List α)} (h : Pieces (filled segs) ([] :: lines)) :
    Pieces (filled segs) lines := by
  have hfilled : ∀ seg ∈ filled segs, seg ≠ [] := fun seg hseg => by
    simpa using (List.mem_filter.mp hseg).2
  generalize filled segs = some_ at h hfilled
  cases h with
  | nil => exact .nil
  | cons hseg _ => exact absurd (List.infix_nil.mp hseg) (hfilled _ List.mem_cons_self)
  | cons_right hrest => exact hrest

/-! ## Whole lines -/

variable [DecidableEq α] (flag : α)

/-- The first delimiter hands over an end of what stands before it. -/
theorem split_line (kept : List α) {is : List (Input α)} {body rest : List α} (hbody : flag ∉ body)
    (his : letters is = body ++ flag :: rest) :
    ∃ is₁ is₂ seg, is = is₁ ++ is₂ ∧ letters is₂ = rest ∧ split flag kept is₁ = ([], [seg]) ∧
      seg <:+ kept ++ body := by
  induction is generalizing kept body with
  | nil => simp [letters] at his
  | cons i is ih =>
    cases i with
    | cut =>
      obtain ⟨is₁, is₂, seg, rfl, hrest, hsplit, hseg⟩ := ih [] hbody his
      refine ⟨.cut :: is₁, is₂, seg, rfl, hrest, ?_, hseg.trans (List.suffix_append kept body)⟩
      rw [split_cons, step, hsplit]
      rfl
    | symbol a =>
      rw [letters] at his
      cases body with
      | nil =>
        obtain ⟨rfl, hrest⟩ := List.cons_eq_cons.mp his
        refine ⟨[.symbol a], is, kept, rfl, hrest, ?_, ?_⟩
        · rw [split_cons, step, if_pos rfl]
          rfl
        · exact (List.append_nil kept).symm ▸ List.suffix_rfl
      | cons b body =>
        obtain ⟨rfl, htail⟩ := List.cons_eq_cons.mp his
        obtain ⟨hne, hbody⟩ := not_or.mp (List.mem_cons.not.mp hbody)
        obtain ⟨is₁, is₂, seg, rfl, hrest, hsplit, hseg⟩ := ih (kept ++ [a]) hbody htail
        refine ⟨.symbol a :: is₁, is₂, seg, rfl, hrest, ?_, ?_⟩
        · rw [split_cons, step, if_neg (Ne.symm hne), hsplit]
          rfl
        · rwa [List.append_assoc] at hseg

omit [DecidableEq α] in
theorem letters_eq_nil {is : List (Input α)} (h : letters is = []) : ∀ i ∈ is, i = .cut := by
  induction is with
  | nil => simp
  | cons i is ih =>
    cases i with
    | cut => exact List.forall_mem_cons.mpr ⟨rfl, ih h⟩
    | symbol a => cases h

/-- **However a stream of lines is cut**, an end of each line is handed over. -/
theorem split_lines {lines : List (List α)} (hlines : ∀ l ∈ lines, flag ∉ l)
    {is : List (Input α)} (his : letters is = lines.flatMap (· ++ [flag])) :
    List.Forall₂ (· <:+ ·) (split flag [] is).2 lines := by
  induction lines generalizing is with
  | nil =>
    have hnone : (split flag [] is).2 = [] := by
      have hcuts := letters_eq_nil his
      clear his
      induction is with
      | nil => rfl
      | cons i is ih =>
        obtain ⟨rfl, hrest⟩ := List.forall_mem_cons.mp hcuts
        exact ih hrest
    rw [hnone]
    exact .nil
  | cons l lines ih =>
    obtain ⟨hl, hrest⟩ := List.forall_mem_cons.mp hlines
    rw [List.flatMap_cons, List.append_assoc] at his
    obtain ⟨is₁, is₂, seg, rfl, hletters, hsplit, hseg⟩ := split_line flag [] hl his
    rw [split_append, hsplit]
    exact .cons hseg (ih hrest hletters)

/-! ## Broken lines -/

omit [DecidableEq α] in
/-- A stream of broken lines that ends early is one too. -/
theorem broken_of_prefix {parts lines : List (List α)} (h : List.Forall₂ (· <+: ·) parts lines)
    {xs : List α} (hxs : xs <+: parts.flatten) :
    ∃ parts', List.Forall₂ (· <+: ·) parts' lines ∧ xs = parts'.flatten := by
  induction h generalizing xs with
  | nil => exact ⟨[], .nil, List.prefix_nil.mp hxs⟩
  | @cons part line parts lines hpart _ ih =>
    rw [List.flatten_cons] at hxs
    rcases List.prefix_or_prefix_of_prefix hxs (List.prefix_append part parts.flatten) with
      hshort | ⟨ys, rfl⟩
    · obtain ⟨parts', hparts', hnone⟩ := ih List.nil_prefix
      refine ⟨xs :: parts', .cons (hshort.trans hpart) hparts', ?_⟩
      rw [List.flatten_cons, ← hnone, List.append_nil]
    · obtain ⟨parts', hparts', rfl⟩ := ih ((List.prefix_append_right_inj part).mp hxs)
      exact ⟨part :: parts', .cons hpart hparts', rfl⟩

omit [DecidableEq α] in
/-- A part of the stream is a part of what reaches the receiver. -/
theorem exists_of_letters_append {is : List (Input α)} {xs ys : List α}
    (h : letters is = xs ++ ys) :
    ∃ is₁ is₂, is = is₁ ++ is₂ ∧ letters is₁ = xs ∧ letters is₂ = ys := by
  induction is generalizing xs with
  | nil =>
    obtain ⟨rfl, rfl⟩ := List.append_eq_nil_iff.mp h.symm
    exact ⟨[], [], rfl, rfl, rfl⟩
  | cons i is ih =>
    cases i with
    | cut =>
      obtain ⟨is₁, is₂, rfl, hxs, hys⟩ := ih h
      exact ⟨.cut :: is₁, is₂, rfl, hxs, hys⟩
    | symbol a =>
      cases xs with
      | nil => exact ⟨[], .symbol a :: is, rfl, rfl, h⟩
      | cons x xs =>
        obtain ⟨rfl, htail⟩ := List.cons_eq_cons.mp h
        obtain ⟨is₁, is₂, rfl, hxs, hys⟩ := ih htail
        exact ⟨.symbol a :: is₁, is₂, rfl, congrArg (a :: ·) hxs, hys⟩

/-- Without a delimiter nothing is handed over. -/
theorem split_open (kept : List α) {is : List (Input α)} {xs : List α} (hxs : flag ∉ xs)
    (his : letters is = xs) :
    (split flag kept is).2 = [] ∧ (split flag kept is).1 <:+ kept ++ xs := by
  have hparts := split_infix flag kept is
  refine ⟨?_, his ▸ hparts.2⟩
  clear hparts
  induction is generalizing kept xs with
  | nil => rfl
  | cons i is ih =>
    cases i with
    | cut => exact ih [] hxs his
    | symbol a =>
      subst his
      obtain ⟨ha, hrest⟩ := not_or.mp (List.mem_cons.not.mp hxs)
      rw [split_cons, step, if_neg (Ne.symm ha)]
      exact ih (kept ++ [a]) hrest rfl

/-- What a broken line makes of what was kept: an end of that may be handed over, and an end of
the line itself, or else it is kept. -/
theorem split_part (kept : List α) {is : List (Input α)} {body part : List α}
    (hbody : flag ∉ body) (hpart : part <+: flag :: (body ++ [flag])) (his : letters is = part) :
    ((split flag kept is).2 = [] ∧ (split flag kept is).1 <:+: kept) ∨
      ∃ first, first <:+: kept ∧
        ((split flag kept is).2 = [first] ∧ (split flag kept is).1 <:+: body ∨
          ∃ second, second <:+: body ∧ split flag kept is = ([], [first, second])) := by
  subst his
  cases hletters : letters is with
  | nil =>
    obtain ⟨hnone, hkept⟩ := split_open flag kept List.not_mem_nil hletters
    rw [List.append_nil] at hkept
    exact .inl ⟨hnone, hkept.isInfix⟩
  | cons a rest =>
    rw [hletters] at hpart
    obtain ⟨rfl, hrest⟩ := List.cons_prefix_cons.mp hpart
    obtain ⟨is₁, is₂, first, rfl, htail, hsplit, hfirst⟩ :=
      split_line a kept List.not_mem_nil hletters
    rw [List.append_nil] at hfirst
    refine .inr ⟨first, hfirst.isInfix, ?_⟩
    rw [split_append, hsplit]
    rcases List.prefix_concat_iff.mp hrest with hall | hbroken
    · obtain ⟨js₁, js₂, second, rfl, hend, hsplit', hsecond⟩ :=
        split_line a [] hbody (htail.trans hall)
      obtain ⟨hnone, hkept⟩ := split_open a [] List.not_mem_nil hend
      refine .inr ⟨second, hsecond.isInfix, ?_⟩
      rw [split_append, hsplit']
      exact Prod.ext (List.suffix_nil.mp hkept) (by rw [hnone]; rfl)
    · have hflag : a ∉ rest := fun hmem => hbody (hbroken.subset hmem)
      obtain ⟨hnone, hkept⟩ := split_open a [] hflag htail
      refine .inl ⟨by rw [hnone]; rfl, ?_⟩
      exact hkept.isInfix.trans hbroken.isInfix

/-- **However a stream of broken lines is cut**, what is handed over are pieces of what was kept
and of the lines. -/
theorem split_broken {bodies parts : List (List α)} (hbodies : ∀ b ∈ bodies, flag ∉ b)
    (hparts : List.Forall₂ (fun part body => part <+: flag :: (body ++ [flag])) parts bodies)
    (kept : List α) {is : List (Input α)} (his : letters is = parts.flatten) :
    Pieces (filled (split flag kept is).2) (kept :: bodies) := by
  induction hparts generalizing kept is with
  | nil =>
    rw [(split_open flag kept List.not_mem_nil his).1]
    exact .nil
  | @cons part body parts bodies hpart _ ih =>
    obtain ⟨hbody, hrest⟩ := List.forall_mem_cons.mp hbodies
    obtain ⟨is₁, is₂, rfl, hnow, hlater⟩ := exists_of_letters_append his
    have hpieces := ih hrest (split flag kept is₁).1 hlater
    rw [split_append]
    rcases split_part flag kept hbody hpart hnow with ⟨hnone, hkept⟩ | ⟨first, hfirst, hrest'⟩
    · rw [hnone]
      exact (hpieces.widen hkept).skip body
    · rcases hrest' with ⟨hone, hkept⟩ | ⟨second, hsecond, hboth⟩
      · rw [hone]
        exact .cons_filled hfirst (hpieces.widen hkept)
      · rw [hboth] at hpieces ⊢
        exact .cons_filled hfirst (.cons_filled hsecond hpieces.drop_empty)

end Segments
