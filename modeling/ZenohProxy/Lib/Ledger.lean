import Mathlib.Data.List.Induction
import Mathlib.Data.Multiset.AddSub

/-!
# Resources that are acquired and released

A component hands out resources and takes them back. Its ledger is the list of what happened,
in order; what is held at its end is a multiset, so that a component may hand out a name again
once it is free. A ledger is clean when every release is of a resource that was held at that
moment: then nothing is released twice.
-/

namespace Ledger

variable {α : Type*} [DecidableEq α]

inductive Entry (α : Type*) where
  | acquire (a : α)
  | release (a : α)
  deriving DecidableEq, Repr

def settle (held : Multiset α) : Entry α → Multiset α
  | .acquire a => a ::ₘ held
  | .release a => held.erase a

/-- What is held after some entries. -/
def held (es : List (Entry α)) : Multiset α := es.foldl settle 0

/-- Every release is of a resource that is held then. -/
def Clean (es : List (Entry α)) : Prop :=
  ∀ before a after, es = before ++ .release a :: after → a ∈ held before

@[simp] theorem held_nil : held ([] : List (Entry α)) = 0 := rfl

theorem held_append (es fs : List (Entry α)) : held (es ++ fs) = fs.foldl settle (held es) :=
  List.foldl_append

@[simp] theorem held_acquire (es : List (Entry α)) (a : α) :
    held (es ++ [.acquire a]) = a ::ₘ held es := held_append es _

@[simp] theorem held_release (es : List (Entry α)) (a : α) :
    held (es ++ [.release a]) = (held es).erase a := held_append es _

theorem held_acquires (es : List (Entry α)) (as : List α) :
    held (es ++ as.map .acquire) = (as : Multiset α) + held es := by
  induction as generalizing es with
  | nil => simp
  | cons a as ih =>
    rw [List.map_cons, List.append_cons, ih, held_acquire, ← Multiset.cons_coe,
      Multiset.cons_add, Multiset.add_cons]

theorem held_releases (es : List (Entry α)) (as : List α) :
    held (es ++ as.map .release) = held es - (as : Multiset α) := by
  induction as generalizing es with
  | nil => simp
  | cons a as ih =>
    rw [List.map_cons, List.append_cons, ih, held_release, ← Multiset.cons_coe,
      Multiset.sub_cons]

theorem held_releases_all {es : List (Entry α)} {as : List α} (has : held es = as) :
    held (es ++ as.map .release) = 0 := by
  rw [held_releases, has]
  refine Multiset.ext' fun a => ?_
  rw [Multiset.count_sub, Nat.sub_self, Multiset.count_zero]

theorem clean_nil : Clean ([] : List (Entry α)) := by
  intro before a after hsplit
  simp at hsplit

/-- One more entry: only a release has to be looked at. -/
theorem Clean.concat {es : List (Entry α)} (h : Clean es) {e : Entry α}
    (he : ∀ a, e = .release a → a ∈ held es) : Clean (es ++ [e]) := by
  intro before a after hsplit
  rcases List.eq_nil_or_concat after with rfl | ⟨after, last, rfl⟩
  · obtain ⟨rfl, hlast⟩ := List.append_inj' hsplit rfl
    exact he a (List.singleton_inj.mp hlast)
  · rw [List.concat_eq_append, ← List.cons_append, ← List.append_assoc] at hsplit
    exact h before a after (List.append_inj' hsplit rfl).1

theorem Clean.acquires {es : List (Entry α)} (h : Clean es) (as : List α) :
    Clean (es ++ as.map .acquire) := by
  induction as generalizing es with
  | nil => rwa [List.map_nil, List.append_nil]
  | cons a as ih =>
    rw [List.map_cons, List.append_cons]
    exact ih (h.concat fun b hb => by cases hb)

/-- Resources that are held may be released together. -/
theorem Clean.releases {es : List (Entry α)} (h : Clean es) {as : List α}
    (has : (as : Multiset α) ≤ held es) : Clean (es ++ as.map .release) := by
  induction as generalizing es with
  | nil => rwa [List.map_nil, List.append_nil]
  | cons a as ih =>
    rw [← Multiset.cons_coe] at has
    have ha : a ∈ held es := Multiset.mem_of_le has (Multiset.mem_cons_self _ _)
    rw [List.map_cons, List.append_cons]
    refine ih (h.concat fun b hb => by cases hb; exact ha) ?_
    rw [held_release]
    have hrest := Multiset.erase_le_erase a has
    rwa [Multiset.erase_cons_head] at hrest

/-- **In a clean ledger** what was acquired is what is held and what was released, each
resource as often as it was acquired. -/
theorem Clean.count {es : List (Entry α)} (h : Clean es) (a : α) :
    es.count (.acquire a) = (held es).count a + es.count (.release a) := by
  induction es using List.reverseRecOn with
  | nil => simp
  | append_singleton es e ih =>
    have ih := ih fun before b after hsplit => h before b (after ++ [e]) (by rw [hsplit]; simp)
    rw [List.count_append, List.count_append, ih]
    cases e with
    | acquire b =>
      by_cases hb : b = a
      · subst hb
        simp
        omega
      · simp [Multiset.count_cons_of_ne (Ne.symm hb), hb]
    | release b =>
      have hmem : b ∈ held es := h es b [] rfl
      by_cases hb : b = a
      · subst hb
        have hpos := Multiset.count_pos.mpr hmem
        simp
        omega
      · simp [Multiset.count_erase_of_ne (Ne.symm hb), hb]

end Ledger
