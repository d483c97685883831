import ZenohProxy.System.Service

/-!
# What reaches zenoh

The system from its start, with whatever tables an earlier client has left at the proxy. The
micro-controller, the timers, the line and the proxy may interleave in any way; no step
assumes anything about the others.
-/

namespace ZenohProxy

open BrokerZenoh Labelled PubSub

/-- The broker of a proxy that has run for some time: the proxy never calls `unSubscribe`. -/
def BrokerZenoh.HasRun (z : Zenoh Unit) (b : BrokerZenoh Unit) : Prop :=
  ∃ history : List (BrokerOp Unit), (∀ op ∈ history, op.isUnSubscribe = false) ∧
    b = new.run z history

section

variable {T : TinyCbor} {z : Zenoh Unit} {nameOf : Nat → Str} {before after : List Creation}
  {s₀ s : System T} {es : List MicroEvent}

theorem BrokerZenoh.HasRun.agrees (hz : z.Succeeds nameOf) {b : BrokerZenoh Unit}
    (h : b.HasRun z) : ∃ ops, Agrees nameOf ops b := by
  obtain ⟨history, hhistory, rfl⟩ := h
  exact ⟨_, (agrees_of_empty nameOf rfl rfl).run hz history hhistory⟩

/-- What a run has relayed has been served. -/
theorem System.Start.served (hT : T.Documented) (hz : z.Succeeds nameOf)
    (h : s₀.Start before after) (hbroker : s₀.broker.HasRun z) (hrun : Run z s₀ es s) :
    ∃ said served pending, Relayed z s₀.micro.broker s₀ es s [] said served pending ∧
      Joined s₀.micro.broker pending s ∧ s.broker.HasRun z ∧
      serve UpMessage.request s₀.broker.registry served
        = (s.broker.registry, written nameOf (newCalls s₀ s)) := by
  obtain ⟨said, served, pending, hrelayed, hjoined⟩ := h.joined.run hT h.proper hrun
  obtain ⟨ops, hagrees⟩ := hbroker.agrees hz
  obtain ⟨new, hcalls, hserve⟩ := run_serves hz hagrees served
  refine ⟨said, served, pending, hrelayed, hjoined, ?_, ?_⟩
  · obtain ⟨history, hhistory, hold⟩ := hbroker
    refine ⟨history ++ served.map UpMessage.op, List.forall_mem_append.mpr ⟨hhistory, ?_⟩, ?_⟩
    · simp [UpMessage.op_isUnSubscribe]
    · rw [hrelayed.broker, hold, run_append]
  · rw [hserve, newCalls, hrelayed.broker, hcalls, List.drop_left]

end

/-- Every publish message is about a publisher that is wanted. -/
theorem Broker.Proper.publication_isSome {B : Broker} (hB : B.Proper) {m : UpMessage}
    (hm : m.IsOf B) {slot : Slot} {value : Bytes} (hrequest : m.request = .publish slot value) :
    (B.wanted slot).isSome := by
  cases m with
  | publish m =>
    obtain ⟨p, hp, hid⟩ := hm
    simp only [UpMessage.request, Request.publish.injEq] at hrequest
    obtain ⟨rfl, rfl⟩ := hrequest
    rw [(hB.wanted_publisher m.id p.key).mpr (hid ▸ hp)]
    rfl
  | _ => cases hrequest

/-- With complete tables all that is published is written. -/
theorem Relayed.written {T : TinyCbor} {z : Zenoh Unit} {nameOf : Nat → Str}
    (hz : z.Succeeds nameOf) {B : Broker} (hB : B.Proper) {s s' : System T}
    {es : List MicroEvent} {said : List UpMessage} (h : Relayed z B s es s' [] said said [])
    (hbroker : s.broker.HasRun z) (hregistry : s.broker.registry = B.wanted) :
    written nameOf (newCalls s s') = said.filterMap fun m => publication B.wanted m.request := by
  obtain ⟨ops, hagrees⟩ := hbroker.agrees hz
  obtain ⟨new, hcalls, hserve⟩ := run_serves hz hagrees said
  rw [newCalls, h.broker, hcalls, List.drop_left, ← hregistry, ← serve_delivers said, hserve]
  intro m hm slot value hrequest
  rw [hregistry]
  exact hB.publication_isSome (h.isOf m hm) hrequest

end ZenohProxy
