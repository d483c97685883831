import ZenohProxy.Lib.Mealy

/-!
# Splitting a stream at a delimiter

A receiver of a delimited stream keeps what it has read since the last delimiter and hands
it over, as one segment, when the next one arrives. It may also drop what it has kept, at a
moment of its own choosing: a cut. This module says what such a receiver hands over:

* `split_framed`: two delimiters with a delimiter-free body between them hand over the body,
  whatever was kept before, and leave nothing behind, so the receiver is resynchronised;
* `split_infix`: every segment, and what is kept at the end, is a contiguous piece of the
  stream, however it was cut.
-/

namespace Segments

variable {α : Type*} [DecidableEq α] (flag : α)

/-- What reaches the receiver: a symbol of the stream, or its own decision to drop what it
has kept. -/
inductive Input (α : Type*) where
  | symbol (a : α)
  | cut
  deriving DecidableEq

/-- The stream, without the cuts. -/
def letters : List (Input α) → List α
  | [] => []
  | .symbol a :: is => a :: letters is
  | .cut :: is => letters is

/-- The symbols of a stream, without cuts. -/
def symbols (xs : List α) : List (Input α) := xs.map .symbol

def step (kept : List α) : Input α → List α × List (List α)
  | .symbol a => if a = flag then ([], [kept]) else (kept ++ [a], [])
  | .cut => ([], [])

/-- What is kept at the end, and the segments handed over. -/
def split (kept : List α) (is : List (Input α)) : List α × List (List α) :=
  Mealy.run (step flag) kept is

omit [DecidableEq α] in
@[simp] theorem letters_append (is js : List (Input α)) :
    letters (is ++ js) = letters is ++ letters js := by
  induction is with
  | nil => rfl
  | cons i is ih => cases i <;> simp [letters, ih]

omit [DecidableEq α] in
@[simp] theorem letters_symbols (xs : List α) : letters (symbols xs) = xs := by
  induction xs with
  | nil => rfl
  | cons x xs ih => simpa [symbols, letters] using ih

omit [DecidableEq α] in
theorem symbols_append (xs ys : List α) : symbols (xs ++ ys) = symbols xs ++ symbols ys :=
  List.map_append

@[simp] theorem split_nil (kept : List α) : split flag kept [] = (kept, []) := rfl

theorem split_cons (kept : List α) (i : Input α) (is : List (Input α)) :
    split flag kept (i :: is)
      = ((split flag (step flag kept i).1 is).1,
          (step flag kept i).2 ++ (split flag (step flag kept i).1 is).2) := rfl

theorem split_append (kept : List α) (is js : List (Input α)) :
    split flag kept (is ++ js)
      = ((split flag (split flag kept is).1 js).1,
          (split flag kept is).2 ++ (split flag (split flag kept is).1 js).2) :=
  Mealy.run_append kept is js

theorem split_ordinary {xs : List α} (hxs : flag ∉ xs) (kept : List α) :
    split flag kept (symbols xs) = (kept ++ xs, []) := by
  induction xs generalizing kept with
  | nil => simp [symbols]
  | cons x xs ih =>
    rw [List.mem_cons, not_or] at hxs
    have hx : ¬ x = flag := fun h => hxs.1 h.symm
    have hstep : step flag kept (.symbol x) = (kept ++ [x], []) := by simp [step, hx]
    rw [show symbols (x :: xs) = .symbol x :: symbols xs from rfl, split_cons, hstep,
      ih hxs.2]
    simp

/-- **Resynchronisation**: a body between two delimiters is handed over whole, right after
whatever was kept before it, and nothing is kept at its end. -/
theorem split_framed {body : List α} (hbody : flag ∉ body) (kept : List α) :
    split flag kept (symbols (flag :: (body ++ [flag]))) = ([], [kept, body]) := by
  have hflag (k : List α) : step flag k (.symbol flag) = ([], [k]) := by simp [step]
  rw [show symbols (flag :: (body ++ [flag]))
      = .symbol flag :: (symbols body ++ symbols [flag]) from by
    rw [← symbols_append]; rfl]
  -- the first delimiter ends what was kept, the second one the body
  rw [split_cons, hflag, split_append, split_ordinary flag hbody]
  rw [show symbols [flag] = [.symbol flag] from rfl, split_cons, hflag, split_nil]
  rfl

/-- **Every segment is a contiguous piece of the stream**, and what is kept is an end of
it. Induction on the stream: a cut and a delimiter restart the kept piece, another symbol
extends it. -/
theorem split_infix (kept : List α) (is : List (Input α)) :
    (∀ seg ∈ (split flag kept is).2, seg <:+: kept ++ letters is) ∧
      (split flag kept is).1 <:+ kept ++ letters is := by
  induction is generalizing kept with
  | nil => simp [letters]
  | cons i is ih =>
    rw [split_cons]
    cases i with
    | cut =>
      obtain ⟨hsegs, hkept⟩ := ih []
      refine ⟨fun seg hseg => ?_, ?_⟩
      · exact (hsegs seg (by simpa [step] using hseg)).trans (List.suffix_append kept _).isInfix
      · exact hkept.trans (List.suffix_append kept _)
    | symbol a =>
      by_cases ha : a = flag
      · obtain ⟨hsegs, hkept⟩ := ih []
        have htail : [] ++ letters is <:+ kept ++ a :: letters is :=
          (List.suffix_cons a _).trans (List.suffix_append kept _)
        have hstep : step flag kept (.symbol a) = ([], [kept]) := by simp [step, ha]
        rw [hstep]
        refine ⟨fun seg hseg => ?_, hkept.trans htail⟩
        rcases List.mem_cons.mp hseg with rfl | hseg
        · exact (List.prefix_append seg _).isInfix
        · exact (hsegs seg hseg).trans htail.isInfix
      · have hstep : step flag kept (.symbol a) = (kept ++ [a], []) := by simp [step, ha]
        have hsame : kept ++ [a] ++ letters is = kept ++ letters (.symbol a :: is) := by
          simp [letters]
        rw [hstep, ← hsame]
        exact ih (kept ++ [a])

/-- What was handed over so far is a beginning of what is handed over later. -/
theorem split_prefix (kept : List α) {is js : List (Input α)} (h : is <+: js) :
    (split flag kept is).2 <+: (split flag kept js).2 := by
  obtain ⟨rest, rfl⟩ := h
  rw [split_append]
  exact List.prefix_append _ _

end Segments
