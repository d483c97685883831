import Mathlib.Tactic.Common

/-!
# Replaying what has been handled

A machine handles a list of inputs. Some inputs may be repeated later, as long as none that
ends the period came in between. If an input that has been handled is settled, in that it
changes nothing when it comes again, then the copies do not change what the machine does
(`foldl_withCopies`).
-/

namespace Replay

variable {α σ : Type*}

/-- The second list is the first with copies of inputs put in. A copy is of an input that may
be repeated and has been seen since the last input that ends the period. -/
inductive WithCopies (repeatable ends : α → Prop) : List α → List α → List α → Prop where
  | nil (seen : List α) : WithCopies repeatable ends seen [] []
  | next {seen : List α} {a : α} {as as' : List α} (ha : ¬ ends a)
      (h : WithCopies repeatable ends (a :: seen) as as') :
      WithCopies repeatable ends seen (a :: as) (a :: as')
  | finish {seen : List α} {a : α} {as as' : List α} (ha : ends a)
      (h : WithCopies repeatable ends [] as as') :
      WithCopies repeatable ends seen (a :: as) (a :: as')
  | copy {seen : List α} {a : α} {as as' : List α} (hseen : a ∈ seen) (ha : repeatable a)
      (h : WithCopies repeatable ends seen as as') :
      WithCopies repeatable ends seen as (a :: as')

variable {repeatable ends : α → Prop}

theorem WithCopies.map {β : Type*} {repeatable' ends' : β → Prop} {f : α → β}
    (hrepeatable : ∀ a, repeatable a → repeatable' (f a)) (hends : ∀ a, ends a ↔ ends' (f a))
    {seen as as' : List α} (h : WithCopies repeatable ends seen as as') :
    WithCopies repeatable' ends' (seen.map f) (as.map f) (as'.map f) := by
  induction h with
  | nil seen => exact .nil _
  | next ha _ ih => exact .next (fun h => ha ((hends _).mpr h)) ih
  | finish ha _ ih => exact .finish ((hends _).mp ha) ih
  | copy hseen ha _ ih => exact .copy (List.mem_map_of_mem hseen) (hrepeatable _ ha) ih

/-- **The rule for replays**: an input is settled once it has been handled and stays settled
until the period ends. -/
theorem foldl_withCopies {step : σ → α → σ} {settled : σ → α → Prop}
    (hsame : ∀ s a, settled s a → step s a = s)
    (hsettles : ∀ s a, repeatable a → settled (step s a) a)
    (hkeeps : ∀ s a b, settled s a → ¬ ends b → settled (step s b) a)
    {seen as as' : List α} (h : WithCopies repeatable ends seen as as') {s : σ}
    (hseen : ∀ a ∈ seen, repeatable a → settled s a) :
    as'.foldl step s = as.foldl step s := by
  induction h generalizing s with
  | nil seen => rfl
  | @next seen b as as' hb _ ih =>
    refine ih fun a ha hrepeat => ?_
    rcases List.mem_cons.mp ha with rfl | ha
    · exact hsettles s a hrepeat
    · exact hkeeps s a b (hseen a ha hrepeat) hb
  | finish _ _ ih => exact ih fun a ha => absurd ha List.not_mem_nil
  | copy hmem ha _ ih =>
    rw [List.foldl_cons, hsame s _ (hseen _ hmem ha)]
    exact ih hseen

end Replay
