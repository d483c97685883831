import Mathlib.Tactic.Common

/-!
# Runs of a machine with outputs

A machine is a step function that takes a state and an input to a new state and a list of
outputs. A run feeds a list of inputs and collects the outputs in order. What a step keeps a
run keeps (`run_keeps`), what every step puts out a run puts out (`run_puts`), and where
every step accounts for what it takes in a run does (`run_accounts`).
-/

namespace Mealy

variable {σ ι ω : Type*}

/-- The state after a list of inputs and everything put out on the way. -/
def run (step : σ → ι → σ × List ω) (s : σ) : List ι → σ × List ω
  | [] => (s, [])
  | i :: rest =>
    let r := run step (step s i).1 rest
    (r.1, (step s i).2 ++ r.2)

variable {step : σ → ι → σ × List ω}

@[simp] theorem run_nil (s : σ) : run step s [] = (s, []) := rfl

theorem run_cons (s : σ) (i : ι) (is : List ι) :
    run step s (i :: is)
      = ((run step (step s i).1 is).1, (step s i).2 ++ (run step (step s i).1 is).2) := rfl

theorem run_append (s : σ) (is js : List ι) :
    run step s (is ++ js)
      = ((run step (run step s is).1 js).1,
          (run step s is).2 ++ (run step (run step s is).1 js).2) := by
  induction is generalizing s with
  | nil => simp
  | cons i is ih => simp only [List.cons_append, run_cons, ih, List.append_assoc]

theorem run_singleton (s : σ) (i : ι) : run step s [i] = step s i := by
  simp [run_cons]

/-- The outputs have no part in the state. -/
theorem run_fst (s : σ) (is : List ι) :
    (run step s is).1 = is.foldl (fun s i => (step s i).1) s := by
  induction is generalizing s with
  | nil => rfl
  | cons i is ih => exact ih (step s i).1

/-- **The invariant rule**: what holds at the start and is kept by every step holds at the
end of every run. -/
theorem run_keeps {P : σ → Prop} (hstep : ∀ s i, P s → P (step s i).1) {s : σ} (hs : P s)
    (is : List ι) : P (run step s is).1 := by
  induction is generalizing s with
  | nil => exact hs
  | cons i is ih => exact ih (hstep s i hs)

/-- **The rule for outputs**: where every step puts out something of a kind that is closed
under appending, so does every run. -/
theorem run_puts {P : σ → Prop} {Q : List ω → Prop} (hnil : Q [])
    (happend : ∀ os ps, Q os → Q ps → Q (os ++ ps))
    (hstep : ∀ s i, P s → P (step s i).1 ∧ Q (step s i).2) {s : σ} (hs : P s) (is : List ι) :
    P (run step s is).1 ∧ Q (run step s is).2 := by
  induction is generalizing s with
  | nil => exact ⟨hs, hnil⟩
  | cons i is ih =>
    obtain ⟨hkept, hput⟩ := hstep s i hs
    obtain ⟨hkepts, hputs⟩ := ih hkept
    exact ⟨hkepts, happend _ _ hput hputs⟩

/-- **The rule of conservation**: what a step held and took in is what it has settled and
what it still holds. Where settling goes with the outputs and adds up, so does every run. -/
theorem run_accounts {α : Type*} (holds : σ → List α) (takes : ι → List α) {P : σ → Prop}
    {Settles : List α → List ω → Prop} (hnil : Settles [] [])
    (happend : ∀ xs ys os ps, Settles xs os → Settles ys ps → Settles (xs ++ ys) (os ++ ps))
    (hstep : ∀ s i, P s → P (step s i).1 ∧ ∃ xs, holds s ++ takes i = xs ++ holds (step s i).1
      ∧ Settles xs (step s i).2) {s : σ} (hs : P s) (is : List ι) :
    P (run step s is).1 ∧ ∃ xs, holds s ++ is.flatMap takes = xs ++ holds (run step s is).1
      ∧ Settles xs (run step s is).2 := by
  induction is generalizing s with
  | nil => exact ⟨hs, [], by simp, hnil⟩
  | cons i is ih =>
    obtain ⟨hkept, xs, hheld, hsettled⟩ := hstep s i hs
    obtain ⟨hkepts, ys, hheld', hsettled'⟩ := ih hkept
    refine ⟨hkepts, xs ++ ys, ?_, happend _ _ _ _ hsettled hsettled'⟩
    rw [List.flatMap_cons, ← List.append_assoc, hheld, List.append_assoc, hheld',
      List.append_assoc]
    rfl

end Mealy
