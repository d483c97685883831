import ZenohProxy.Lib.Simulation
import ZenohProxy.Micro.BrokerSerial
import ZenohProxy.Proxy.Handlers
import ZenohProxy.Proxy.Registrations

/-!
# The two programs together

A micro-controller and a proxy are joined by two byte streams that lose nothing. Either
program may run at any time on what has reached it; the client publishes, the timers fire and
zenoh delivers samples when they like.

Between the two are frames that are half received, bytes under way and decoders, but what
they amount to is a queue: the messages of the micro-controller wait in the order in which it
said them, and each that the proxy takes off makes one call of the broker (`Joined.step`,
`Joined.run`). Nothing is assumed of the answers of zenoh.
-/

namespace ZenohProxy

open Cbor (encodeArray)
open BrokerZenoh Labelled

structure System (T : TinyCbor) where
  micro : BrokerSerial T
  proxy : ProxyMain T
  broker : BrokerZenoh Unit
  /-- The bytes under way to the proxy. -/
  up : Bytes
  /-- The bytes under way to the micro-controller. -/
  down : Bytes

/-- What goes to `toSerialMsg`. -/
def toSerial (events : List ProxyEvent) : List (Option Bytes) :=
  events.filterMap fun e =>
    match e with
    | .called .. => none
    | .toSerial msg => some msg

/-- A step of one of the programs, with the events of the micro-controller in it. A step in
which a message could not be made is not one: the program has stopped. -/
inductive Step {T : TinyCbor} (z : Zenoh Unit) :
    System T → List MicroEvent → System T → Prop where
  | micro {s : System T} (i : MicroInput) (down : Bytes) (sent : List Bytes)
      (hbytes : s.down = i.bytes ++ down) (hsent : outgoing (s.micro.step i).2 = sent.map some) :
      Step z s (s.micro.step i).2
        { s with micro := (s.micro.step i).1, up := s.up ++ sent.flatMap pppFrame, down }
  /-- The link loses nothing, so neither does the timeout of the extractor. -/
  | proxy {s : System T} (c : Chunk) (up : Bytes) (sent : List Bytes)
      (hbytes : s.up = c.bytes.map Prod.fst ++ up) (hkeeps : s.proxy.bytesToFrame.Keeps c)
      (hsent : toSerial (s.proxy.onChunk c).2 = sent.map some) :
      Step z s []
        { s with
          proxy := (s.proxy.onChunk c).1
          broker := s.broker.run z (brokerOps (s.proxy.onChunk c).2)
          up
          down := s.down ++ sent.flatMap pppFrame }
  | sample {s : System T} (id : Int) (data frame : Bytes)
      (hassert : (s.proxy.proxy.onSample id data).1.toCbor.assertFailed = false)
      (hsent : toSerial (s.proxy.proxy.onSample id data).2 = [some frame]) :
      Step z s []
        { s with
          proxy := { s.proxy with proxy := (s.proxy.proxy.onSample id data).1 }
          down := s.down ++ pppFrame frame }

/-- Any steps in any order, with all events of the micro-controller. -/
abbrev Run {T : TinyCbor} (z : Zenoh Unit) :
    System T → List MicroEvent → System T → Prop :=
  Trace (Step z)

/-! ## What the messages mean to the proxy -/

namespace UpMessage

def frame (m : UpMessage) : Bytes := encodeArray m.elements

def handler : UpMessage → Handler
  | .connect _ => .connect
  | .subscriber _ => .subscriber
  | .publisher _ => .publisher
  | .publish _ => .publish

def op : UpMessage → BrokerOp Unit
  | .connect m => .connect m.clientId
  | .subscriber m => .subscriber m.id m.topic ()
  | .publisher m => .publisher m.id m.topic
  | .publish m => .publish m.id m.value

theorem op_isUnSubscribe (m : UpMessage) : m.op.isUnSubscribe = false := by
  cases m <;> rfl

theorem op_isDisconnect (m : UpMessage) : m.op.isDisconnect = false := by
  cases m <;> rfl

end UpMessage

/-- The identifiers are those of an `int` and no two are the same, and the keys are whole as
C strings. -/
structure Broker.Proper (B : Broker) : Prop where
  distinct : B.ids.Nodup
  ids : ∀ id ∈ B.ids, IsInt32 id
  publishers : ∀ p ∈ B.publishers, 0 ∉ p.key
  subscribers : ∀ s ∈ B.subscribers, 0 ∉ s.key

section

variable {B : Broker} (hB : B.Proper)
include hB

theorem Broker.Proper.publisher_id {p : Resource} (hp : p ∈ B.publishers) : IsInt32 p.id :=
  hB.ids _ (List.mem_append_left _ (List.mem_map_of_mem hp))

theorem Broker.Proper.subscriber_id {s : Subscriber} (hs : s ∈ B.subscribers) : IsInt32 s.id :=
  hB.ids _ (List.mem_append_right _ (List.mem_map.mpr ⟨s, hs, rfl⟩))

theorem UpMessage.IsOf.means {T : TinyCbor} (hT : T.Documented) {m : UpMessage} (hm : m.IsOf B)
    (hfit : m.frame.length ≤ 100) : Proxy.Means T m.frame m.handler m.op := by
  have hlen : m.frame.length ≤ 1024 := hfit.trans (by decide)
  cases m with
  | connect m =>
    -- the prefix has no zero in it
    obtain rfl := hm
    have hmeans := Proxy.means_connect hT hlen
    rwa [cStr_of_no_nul (by decide)] at hmeans
  | subscriber m =>
    obtain ⟨s, hs, rfl⟩ := hm
    have hmeans := Proxy.means_subscriber hT (hB.subscriber_id hs) hlen
    rwa [cStr_of_no_nul (hB.subscribers s hs)] at hmeans
  | publisher m =>
    obtain ⟨p, hp, rfl⟩ := hm
    have hmeans := Proxy.means_publisher hT (hB.publisher_id hp) hlen
    rwa [cStr_of_no_nul (hB.publishers p hp)] at hmeans
  | publish m =>
    obtain ⟨p, hp, hid⟩ := hm
    exact Proxy.means_publish hT (hid ▸ hB.publisher_id hp) hlen

end

/-- The frames for what the micro-controller says. -/
theorem Says.sent {B : Broker} {es : List MicroEvent} {ms : List UpMessage} (h : Says B es ms)
    {sent : List Bytes} (hsent : outgoing es = sent.map some) :
    sent = ms.map UpMessage.frame ∧ ∀ m ∈ ms, m.frame.length ≤ 100 := by
  have hwrites := h.writes
  rw [hsent, List.forall₂_map_left_iff] at hwrites
  clear h hsent
  induction hwrites with
  | nil => exact ⟨rfl, by simp⟩
  | cons hwrite _ ih =>
    obtain ⟨rfl, hfit⟩ := hwrite _ rfl
    exact ⟨congrArg _ ih.1, List.forall_mem_cons.mpr ⟨hfit, ih.2⟩⟩

theorem frame_ne_nil (ms : List UpMessage) : ∀ f ∈ ms.map UpMessage.frame, f ≠ [] := by
  intro f hf
  obtain ⟨m, -, rfl⟩ := List.mem_map.mp hf
  exact List.cons_ne_nil _ _

/-! ## The line as a queue -/

section

variable {T : TinyCbor} {z : Zenoh Unit} {B : Broker} {s s' s'' : System T}
  {es es' : List MicroEvent} {pending pending' pending'' said said' served served' : List UpMessage}

/-- The messages `pending` are under way to the proxy. -/
structure Joined (B : Broker) (pending : List UpMessage) (s : System T) : Prop where
  micro : s.micro.IsOf B
  proxy : s.proxy.proxy.Ready
  link : InFlight s.proxy.bytesToFrame.inputFrame s.up (pending.map UpMessage.frame)
  fit : ∀ m ∈ pending, m.frame.length ≤ 100
  isOf : ∀ m ∈ pending, m.IsOf B

/-- What has happened between two states: the micro-controller has said something, and the
proxy has served something. -/
structure Relayed (z : Zenoh Unit) (B : Broker) (s : System T) (es : List MicroEvent)
    (s' : System T) (pending said served pending' : List UpMessage) : Prop where
  queue : pending ++ said = served ++ pending'
  broker : s'.broker = s.broker.run z (served.map UpMessage.op)
  outgoing : outgoing es = said.map fun m => some m.frame
  isOf : ∀ m ∈ said, m.IsOf B
  registers : .connected ∈ es → Registers B said

theorem Relayed.refl : Relayed z B s [] s pending [] [] pending :=
  ⟨by simp, rfl, rfl, by simp, by simp⟩

theorem Relayed.trans (h : Relayed z B s es s' pending said served pending')
    (h' : Relayed z B s' es' s'' pending' said' served' pending'') :
    Relayed z B s (es ++ es') s'' pending (said ++ said') (served ++ served') pending'' where
  queue := by
    rw [← List.append_assoc, h.queue, List.append_assoc, h'.queue, List.append_assoc]
  broker := by rw [h'.broker, h.broker, List.map_append, run_append]
  outgoing := by
    rw [List.map_append, ← h.outgoing, ← h'.outgoing]
    exact List.filterMap_append
  isOf := List.forall_mem_append.mpr ⟨h.isOf, h'.isOf⟩
  registers hmem := by
    rcases List.mem_append.mp hmem with hmem | hmem
    · exact (h.registers hmem).append_left
    · exact (h'.registers hmem).append_right

/-- What is served was under way before or has been said. -/
theorem Relayed.served_isOf (h : Relayed z B s es s' pending said served pending')
    (hpending : ∀ m ∈ pending, m.IsOf B) : ∀ m ∈ served, m.IsOf B := by
  have hall := List.forall_mem_append.mpr ⟨hpending, h.isOf⟩
  rw [h.queue] at hall
  exact (List.forall_mem_append.mp hall).1

/-- The tables follow what is served. -/
theorem Relayed.agrees {nameOf : Nat → Str} (hz : z.Succeeds nameOf)
    (h : Relayed z B s es s' pending said served pending') {ops : List (BrokerOp Unit)}
    (hagrees : Agrees nameOf ops s.broker) :
    Agrees nameOf (ops ++ served.map UpMessage.op) s'.broker := by
  rw [h.broker]
  exact hagrees.run hz _ (by simp [UpMessage.op_isUnSubscribe])

/-- **One step** moves the messages along the queue. -/
theorem Joined.step (hT : T.Documented) (hB : B.Proper) (h : Joined B pending s)
    (hstep : Step z s es s') :
    ∃ said served pending', Relayed z B s es s' pending said served pending' ∧
      Joined B pending' s' := by
  cases hstep with
  | micro i down sent hbytes hsent =>
    -- the frames of what is said come behind those under way
    obtain ⟨hmicro, said, hspoken⟩ := BrokerSerial.step_speaks hT h.micro i
    obtain ⟨rfl, hfit⟩ := hspoken.sent hsent
    have hout : outgoing (s.micro.step i).2 = said.map fun m => some m.frame := by
      rw [hsent, List.map_map]
      rfl
    refine ⟨said, [], pending ++ said, ⟨rfl, rfl, hout, hspoken.isOf, hspoken.registers⟩, ?_⟩
    refine ⟨hmicro, h.proxy, ?_, List.forall_mem_append.mpr ⟨h.fit, hfit⟩,
      List.forall_mem_append.mpr ⟨h.isOf, hspoken.isOf⟩⟩
    rw [List.map_append]
    exact h.link.send (frame_ne_nil said)
  | proxy c up sent hbytes hkeeps hsent =>
    obtain ⟨later, hframes, hlater⟩ := (hbytes ▸ h.link).receive hkeeps fun kept _ => kept
    -- the frames that are emitted are those of the first messages under way
    obtain ⟨now, rest, rfl, hnow, rfl⟩ := List.map_eq_append_iff.mp hframes
    obtain ⟨hfitNow, hfitRest⟩ := List.forall_mem_append.mp h.fit
    obtain ⟨hofNow, hofRest⟩ := List.forall_mem_append.mp h.isOf
    have hops := Proxy.brokerOps_onFrames_means hT h.proxy fun m hm =>
      (hofNow m hm).means hB hT (hfitNow m hm)
    rw [hnow] at hops
    refine ⟨[], now, rest, ⟨by simp, ?_, rfl, by simp, by simp⟩, h.micro, ?_, hlater, hfitRest,
      hofRest⟩
    · exact congrArg (s.broker.run z) hops
    · exact Proxy.onFrames_ready hT h.proxy _
  | sample id data frame hassert hsent =>
    refine ⟨[], [], pending, ⟨by simp, rfl, rfl, by simp, by simp⟩, h.micro, ?_, h.link, h.fit,
      h.isOf⟩
    -- a sample goes the other way and touches the serializer only
    have hdone := MsgPublish.reflect_finished hT s.proxy.proxy.toCbor ⟨id, data⟩
    exact ⟨h.proxy.filters, h.proxy.fromCbor, hdone.capacity.trans h.proxy.toCbor⟩

/-- **A run** does. -/
theorem Joined.run (hT : T.Documented) (hB : B.Proper) (h : Joined B pending s)
    (hrun : Run z s es s') :
    ∃ said served pending', Relayed z B s es s' pending said served pending' ∧
      Joined B pending' s' := by
  induction hrun with
  | refl => exact ⟨[], [], pending, .refl, h⟩
  | tail _ hstep ih =>
    obtain ⟨said, served, pending₁, hrelayed, h₁⟩ := ih
    obtain ⟨said', served', pending₂, hrelayed', h₂⟩ := h₁.step hT hB hstep
    exact ⟨said ++ said', served ++ served', pending₂, hrelayed.trans hrelayed', h₂⟩

/-- With no byte under way to the proxy, no message is. -/
theorem Joined.pending_eq_nil (h : Joined B pending s) (hdone : s.up = []) : pending = [] := by
  have hlink := h.link
  rw [hdone] at hlink
  exact List.map_eq_nil_iff.mp hlink.eq_nil.2

end

end ZenohProxy
