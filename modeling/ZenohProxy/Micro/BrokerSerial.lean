import ZenohProxy.Codec.MsgFilter
import ZenohProxy.Micro.Broker
import ZenohProxy.Ppp.Link

/-!
# The micro-controller on the serial line

`BrokerSerial` announces itself until it is answered, then registers every resource: for each
connect message that comes in, all subscribers and then all publishers. While connected it
publishes its uptime, and what comes back of it becomes the latency.

Whatever comes in, what goes out is made of four kinds of message about its own resources
(`step_speaks`), and a connect message that comes in makes it register all of them.
-/

namespace ZenohProxy

open Cbor (Scalar encodeArray)
open CborSerializer

/-- The filters between `_bytesToFrame` and the three incoming flows. -/
inductive Incoming where
  | publish
  | connect
  | disconnect
  deriving DecidableEq, Repr

def Incoming.msgType : Incoming → MsgType
  | .publish => .publish
  | .connect => .connect
  | .disconnect => .disconnect

/-- The order in which the filters are attached. -/
def Incoming.all : List Incoming := [.publish, .connect, .disconnect]

/-- What the subscriber of the uptime finds when a message comes in: the uninitialised
`msgPublish.id` and `t`, and two readings of the clock. -/
structure UptimeLocals where
  id : Int
  t : Nat
  millis : UInt64
  millisAfter : UInt64

structure BrokerSerial (T : TinyCbor) where
  broker : Broker
  uptimePub : Resource
  latencyPub : Resource
  /-- A subscriber of `uint64_t`. -/
  uptimeSub : Resource
  bytesToFrame : FrameRx
  filters : Incoming → MsgFilter T
  toCbor : CborSerializer T
  connected : Bool
  loopbackReceived : UInt64
  /-- One message after the other. -/
  locals : Nat → UptimeLocals

/-- What is seen of a step: the handler of `incomingConnect` is entered; `outgoingFrame` is
given a message, or the program stops at a failing assertion while it is made. -/
inductive MicroEvent where
  | connected
  | outgoing (msg : Option Bytes)
  deriving DecidableEq

/-- What `outgoingFrame` is given. -/
def outgoing (events : List MicroEvent) : List (Option Bytes) :=
  events.filterMap fun e =>
    match e with
    | .connected => none
    | .outgoing msg => some msg

/-- The octets of a message, if the assertions of the serializer hold. -/
def CborSerializer.message {T : TinyCbor} (toCbor : CborSerializer T) : Option Bytes :=
  if toCbor.assertFailed then none else toCbor.toBytes

/-- What the lambda of a publisher does with the octets of a value. -/
def Publisher.send (T : TinyCbor) (p : Resource) (bs : Bytes) : Option Bytes :=
  (MsgPublish.reflect ⟨p.id, bs⟩ (CborSerializer.new T 100)).2.message

namespace BrokerSerial

/-- What the constructor leaves, on memory that was all zero. -/
def new (T : TinyCbor) : BrokerSerial T where
  broker := .new
  uptimePub := ⟨0, []⟩
  latencyPub := ⟨0, []⟩
  uptimeSub := ⟨0, []⟩
  bytesToFrame := ⟨[], [], 0⟩
  filters _ := ⟨0, ⟨0⟩, .new T 0⟩
  toCbor := .new T 100
  connected := false
  loopbackReceived := 0
  locals _ := ⟨0, 0, 0, 0⟩

variable {T : TinyCbor}

/-- `publisher` and `subscriber`, some times. -/
def creates (s : BrokerSerial T) (calls : List Creation) : Option (BrokerSerial T) :=
  (s.broker.creates calls).map fun broker => { s with broker }

/-- `init`. The `msgBase` of a new filter is not initialised. -/
def init (s : BrokerSerial T) : Option (BrokerSerial T) := do
  let (broker, uptimePub) ← s.broker.publisher (str "system/uptime")
  let (broker, latencyPub) ← broker.publisher (str "system/latency")
  let (broker, uptimeSub) ←
    broker.subscriber (brokerSrcPrefix ++ str "system/uptime") .uint64
  let filters (i : Incoming) : MsgFilter T :=
    { s.filters i with msgType := i.msgType.code, fromCbor := .new T 1024 }
  some { s with
    connected := false, broker, uptimePub, latencyPub, uptimeSub := uptimeSub.toResource, filters }

/-- The calls of the client around `init`. -/
def setup (s : BrokerSerial T) (before after : List Creation) : Option (BrokerSerial T) := do
  let s ← s.creates before
  let s ← s.init
  s.creates after

/-- The body of the first loop of `incomingConnect`. -/
def sendSubscriber (toCbor : CborSerializer T) (sub : Subscriber) :
    CborSerializer T × List MicroEvent :=
  let (_, toCbor) := MsgSubscriber.reflect ⟨sub.id, sub.key⟩ toCbor
  (toCbor, [.outgoing toCbor.message])

/-- The body of the second loop. -/
def sendPublisher (toCbor : CborSerializer T) (pub : Resource) :
    CborSerializer T × List MicroEvent :=
  let (_, toCbor) := MsgPublisher.reflect ⟨pub.id, pub.key⟩ toCbor
  (toCbor, [.outgoing toCbor.message])

/-- The handler of `incomingConnect`. -/
def onConnect (s : BrokerSerial T) : BrokerSerial T × List MicroEvent :=
  let (toCbor, subs) := Mealy.run sendSubscriber s.toCbor s.broker.subscribers
  let (toCbor, pubs) := Mealy.run sendPublisher toCbor s.broker.publishers
  ({ s with toCbor, connected := true }, .connected :: (subs ++ pubs))

/-- `incomingPublish`. Of the subscribers only that of the uptime belongs to the library: its
value becomes the latency. What the others emit goes to the client. -/
def onPublish (s : BrokerSerial T) (frame : Bytes) : BrokerSerial T × List MicroEvent :=
  let l := s.locals 0
  let s := { s with locals := fun n => s.locals (n + 1) }
  -- the clock is read before and after the latency goes out
  match Subscriber.on ⟨s.uptimeSub, .uint64⟩ (.new T 100) l.id l.t frame with
  | none => (s, [])
  | some t =>
    let latency := (l.millis - .ofNat t).toNat
    ({ s with loopbackReceived := l.millisAfter },
      [.outgoing (Publisher.on s.latencyPub (.new T 100) latency)])

/-- What the flow behind a filter does. Nothing is attached to `incomingDisconnect`. -/
def onIncoming (s : BrokerSerial T) (frame : Bytes) :
    Incoming → BrokerSerial T × List MicroEvent
  | .publish => s.onPublish frame
  | .connect => s.onConnect
  | .disconnect => (s, [])

/-- A filter and the flow behind it. -/
def handle (frame : Bytes) (s : BrokerSerial T) (i : Incoming) :
    BrokerSerial T × List MicroEvent :=
  let (filter, out) := (s.filters i).on frame
  let s := { s with filters := Function.update s.filters i filter }
  match out with
  | none => (s, [])
  | some frame => s.onIncoming frame i

def onFrame (s : BrokerSerial T) (frame : Bytes) : BrokerSerial T × List MicroEvent :=
  Mealy.run (handle frame) s Incoming.all

/-- `onRxd`, on what is available. -/
def onRxd (s : BrokerSerial T) (c : Chunk) : BrokerSerial T × List MicroEvent :=
  let (bytesToFrame, out) := BytesToFrame.handleRxd s.bytesToFrame c
  Mealy.run onFrame { s with bytesToFrame } (emitted out)

/-- The handler of `keepAliveTimer`. -/
def onKeepAlive (s : BrokerSerial T) (millis : UInt64) : BrokerSerial T × List MicroEvent :=
  if s.connected then
    (s, [.outgoing (Publisher.on s.uptimePub (.new T 100) millis.toNat)])
  else
    let (_, toCbor) := MsgConnect.reflect ⟨brokerSrcPrefix⟩ s.toCbor
    ({ s with toCbor }, [.outgoing toCbor.message])

/-- The handler of `connectTimer`. -/
def onConnectTimer (s : BrokerSerial T) (millis : UInt64) : BrokerSerial T × List MicroEvent :=
  ({ s with
      connected := if 5000 < millis - s.loopbackReceived then false else s.connected }, [])

/-- The client gives its `n`-th publisher a value that comes to the octets `bs`. -/
def onClient (s : BrokerSerial T) (n : Nat) (bs : Bytes) : BrokerSerial T × List MicroEvent :=
  match s.broker.publishers[n]? with
  | some p => (s, [.outgoing (Publisher.send T p bs)])
  | none => (s, [])

end BrokerSerial

/-- What can happen to the micro-controller. -/
inductive MicroInput where
  | keepAlive (millis : UInt64)
  | connectTimer (millis : UInt64)
  | client (n : Nat) (bs : Bytes)
  | rxd (c : Chunk)

/-- The bytes that are read off the serial line. -/
def MicroInput.bytes : MicroInput → Bytes
  | .rxd c => c.bytes.map Prod.fst
  | _ => []

def BrokerSerial.step {T : TinyCbor} (s : BrokerSerial T) :
    MicroInput → BrokerSerial T × List MicroEvent
  | .keepAlive millis => s.onKeepAlive millis
  | .connectTimer millis => s.onConnectTimer millis
  | .client n bs => s.onClient n bs
  | .rxd c => s.onRxd c

/-! ## What the micro-controller says -/

inductive UpMessage where
  | connect (m : MsgConnect)
  | subscriber (m : MsgSubscriber)
  | publisher (m : MsgPublisher)
  | publish (m : MsgPublish)
  deriving DecidableEq

def UpMessage.elements : UpMessage → List Scalar
  | .connect m => m.elements
  | .subscriber m => m.elements
  | .publisher m => m.elements
  | .publish m => m.elements

/-- A message about the resources of `B`. -/
def UpMessage.IsOf (B : Broker) : UpMessage → Prop
  | .connect m => m = ⟨brokerSrcPrefix⟩
  | .subscriber m => ∃ s ∈ B.subscribers, m = ⟨s.id, s.key⟩
  | .publisher m => ∃ p ∈ B.publishers, m = ⟨p.id, p.key⟩
  | .publish m => ∃ p ∈ B.publishers, m.id = p.id

/-- What is handed to `outgoingFrame` for a message, if anything is. -/
def UpMessage.Writes (m : UpMessage) (out : Option Bytes) : Prop :=
  ∀ frame, out = some frame →
    frame = encodeArray m.elements ∧ (encodeArray m.elements).length ≤ 100

/-- Every resource is registered by one of the messages. -/
structure Registers (B : Broker) (ms : List UpMessage) : Prop where
  subscribers : ∀ s ∈ B.subscribers, .subscriber ⟨s.id, s.key⟩ ∈ ms
  publishers : ∀ p ∈ B.publishers, .publisher ⟨p.id, p.key⟩ ∈ ms

/-- The events are those of some messages about the resources of `B`, and where a connect
message has come in all of them are registered. -/
structure Says (B : Broker) (events : List MicroEvent) (ms : List UpMessage) : Prop where
  writes : List.Forall₂ (fun out m => m.Writes out) (outgoing events) ms
  isOf : ∀ m ∈ ms, m.IsOf B
  registers : .connected ∈ events → Registers B ms

section

variable {B : Broker} {es es' : List MicroEvent} {ms ms' : List UpMessage}

theorem Registers.append_left (h : Registers B ms) : Registers B (ms ++ ms') :=
  ⟨fun s hs => List.mem_append_left _ (h.subscribers s hs),
    fun p hp => List.mem_append_left _ (h.publishers p hp)⟩

theorem Registers.append_right (h : Registers B ms') : Registers B (ms ++ ms') :=
  ⟨fun s hs => List.mem_append_right _ (h.subscribers s hs),
    fun p hp => List.mem_append_right _ (h.publishers p hp)⟩

theorem says_nil : Says B [] [] := ⟨.nil, by simp, by simp⟩

theorem Says.append (h : Says B es ms) (h' : Says B es' ms') : Says B (es ++ es') (ms ++ ms') where
  writes := by
    rw [outgoing, List.filterMap_append]
    exact List.rel_append h.writes h'.writes
  isOf m hm := (List.mem_append.mp hm).elim (h.isOf m) (h'.isOf m)
  registers hmem := by
    rcases List.mem_append.mp hmem with hmem | hmem
    · exact (h.registers hmem).append_left
    · exact (h'.registers hmem).append_right

theorem says_outgoing {out : Option Bytes} {m : UpMessage} (hwrites : m.Writes out)
    (hof : m.IsOf B) : Says B [.outgoing out] [m] :=
  ⟨.cons hwrites .nil, by simpa using hof, by simp⟩

end

section

variable {T : TinyCbor} {toCbor toCbor' : CborSerializer T} {bs : Bytes}

/-- `toBytes` gives a message when its octets fit, and nothing is given when they do not. -/
theorem message_eq_some (hnew : toCbor.assertFailed = false) (hdone : Finished toCbor bs toCbor')
    {frame : Bytes} :
    toCbor'.message = some frame ↔ frame = bs ∧ bs.length ≤ toCbor.capacity := by
  rw [CborSerializer.message, hdone.asserts, hnew, Bool.false_or]
  by_cases hfit : bs.length ≤ toCbor.capacity
  · rw [decide_eq_false (Nat.not_lt.mpr hfit), hdone.toBytes hfit]
    simp [hfit, eq_comm]
  · simp [hfit, Nat.lt_of_not_le hfit]

theorem Publisher.send_eq_some (hT : T.Documented) (p : Resource) {frame : Bytes} :
    Publisher.send T p bs = some frame ↔
      frame = encodeArray (MsgPublish.elements ⟨p.id, bs⟩) ∧ frame.length ≤ 100 := by
  rw [Publisher.send, message_eq_some rfl (MsgPublish.reflect_finished hT (.new T 100) ⟨p.id, bs⟩)]
  exact and_congr_right fun h => by rw [h]; rfl

/-- An integer goes out as its octets do. -/
theorem Publisher.on_eq_send (hT : T.Documented) (p : Resource) (t : Int) :
    Publisher.on p (.new T 100) t = Publisher.send T p (encodeArray [.int (toInt32 t)]) := by
  rw [Publisher.on_eq hT rfl, eq_comm, Publisher.send_eq_some hT]
  exact ⟨rfl, (length_publish_int_le _ _).trans (by decide)⟩

end

namespace BrokerSerial

variable {T : TinyCbor}

/-- The broker is `B`, two of whose publishers are those of the uptime and the latency. -/
structure IsOf (B : Broker) (s : BrokerSerial T) : Prop where
  broker : s.broker = B
  uptimePub : s.uptimePub ∈ B.publishers
  latencyPub : s.latencyPub ∈ B.publishers
  toCbor : s.toCbor.capacity = 100

variable {B : Broker}

/-- What a serializer of 100 octets makes of a message, when no assertion fails. -/
theorem writes_message {m : UpMessage} {toCbor toCbor' : CborSerializer T}
    (hcapacity : toCbor.capacity = 100)
    (hdone : Finished toCbor (encodeArray m.elements) toCbor') : m.Writes toCbor'.message := by
  intro frame hframe
  rw [CborSerializer.message, Option.ite_none_left_eq_some] at hframe
  obtain ⟨hassert, hframe⟩ := hframe
  rw [hdone.asserts, hcapacity] at hassert
  -- a message that does not fit has made an assertion fail
  have hfit : (encodeArray m.elements).length ≤ 100 := by
    by_contra hlong
    exact hassert (by simp [Nat.lt_of_not_le hlong])
  rw [hdone.toBytes (hcapacity ▸ hfit)] at hframe
  exact ⟨(Option.some.inj hframe).symm, hfit⟩

theorem says_loop {α : Type} {send : CborSerializer T → α → CborSerializer T × List MicroEvent}
    {msg : α → UpMessage} {as : List α}
    (hsend : ∀ toCbor, toCbor.capacity = 100 → ∀ a ∈ as,
      (send toCbor a).1.capacity = 100 ∧ Says B (send toCbor a).2 [msg a])
    {toCbor : CborSerializer T} (hcapacity : toCbor.capacity = 100) :
    (Mealy.run send toCbor as).1.capacity = 100 ∧
      Says B (Mealy.run send toCbor as).2 (as.map msg) := by
  induction as generalizing toCbor with
  | nil => exact ⟨hcapacity, says_nil⟩
  | cons a as ih =>
    obtain ⟨hroom, hspoken⟩ := hsend toCbor hcapacity a List.mem_cons_self
    obtain ⟨hrooms, hspokens⟩ := ih (fun t ht a' ha' => hsend t ht a' (List.mem_cons_of_mem _ ha'))
      hroom
    exact ⟨hrooms, hspoken.append hspokens⟩

theorem says_run {ι : Type} {f : BrokerSerial T → ι → BrokerSerial T × List MicroEvent}
    (hf : ∀ s i, s.IsOf B → (f s i).1.IsOf B ∧ ∃ ms, Says B (f s i).2 ms)
    {s : BrokerSerial T} (hs : s.IsOf B) (is : List ι) :
    (Mealy.run f s is).1.IsOf B ∧ ∃ ms, Says B (Mealy.run f s is).2 ms :=
  Mealy.run_puts (P := IsOf B) (Q := fun es => ∃ ms, Says B es ms) ⟨[], says_nil⟩
    (fun _ _ ⟨_, h⟩ ⟨_, h'⟩ => ⟨_, h.append h'⟩) hf hs is

/-- The calls that `init` makes. -/
def initCalls : List Creation :=
  [.publisher (str "system/uptime"), .publisher (str "system/latency"),
    .subscriber (brokerSrcPrefix ++ str "system/uptime") .uint64]

theorem creates_created {s s' : BrokerSerial T} {calls more : List Creation}
    (h : s.broker.Created calls) (hcreates : s.creates more = some s') :
    s'.broker.Created (calls ++ more) ∧ s' = { s with broker := s'.broker } := by
  obtain ⟨b, hb, rfl⟩ := Option.map_eq_some_iff.mp hcreates
  exact ⟨h.creates hb, rfl⟩

theorem init_created {s s' : BrokerSerial T} {calls : List Creation}
    (h : s.broker.Created calls) (hcapacity : s.toCbor.capacity = 100)
    (hinit : s.init = some s') :
    s'.broker.Created (calls ++ initCalls) ∧ s'.IsOf s'.broker := by
  simp only [init, Option.bind_eq_bind, Option.bind_eq_some_iff, Option.some.injEq,
    Prod.exists] at hinit
  obtain ⟨b₁, uptimePub, huptime, b₂, latencyPub, hlatency, b₃, uptimeSub, hsub, rfl⟩ := hinit
  have hcreate₁ : s.broker.create (.publisher (str "system/uptime")) = some b₁ := by
    rw [Broker.create, huptime]
    rfl
  have hcreate₂ : b₁.create (.publisher (str "system/latency")) = some b₂ := by
    rw [Broker.create, hlatency]
    rfl
  have hcreate₃ : b₂.create (.subscriber (brokerSrcPrefix ++ str "system/uptime") .uint64)
      = some b₃ := by
    rw [Broker.create, hsub]
    rfl
  have h₁ := h.create hcreate₁
  have h₂ := h₁.create hcreate₂
  have h₃ := h₂.create hcreate₃
  -- both publishers are still there when the subscriber is added
  have huptimePub : uptimePub ∈ b₁.publishers := by
    simp only [Broker.publisher, Option.ite_none_right_eq_some, Option.some.injEq,
      Prod.mk.injEq] at huptime
    obtain ⟨-, rfl, rfl⟩ := huptime
    simp
  have hlatencyPub : latencyPub ∈ b₂.publishers := by
    simp only [Broker.publisher, Option.ite_none_right_eq_some, Option.some.injEq,
      Prod.mk.injEq] at hlatency
    obtain ⟨-, rfl, rfl⟩ := hlatency
    simp
  refine ⟨by simpa [initCalls] using h₃, rfl, ?_, ?_, hcapacity⟩
  · exact h₂.mem_publishers_append h₃ (h₁.mem_publishers_append h₂ huptimePub)
  · exact h₂.mem_publishers_append h₃ hlatencyPub

theorem setup_created {s s' : BrokerSerial T} {before after : List Creation}
    (hnew : s.broker = .new) (hcapacity : s.toCbor.capacity = 100)
    (hsetup : s.setup before after = some s') :
    s'.broker.Created (before ++ initCalls ++ after) ∧ s'.IsOf s'.broker := by
  simp only [setup, Option.bind_eq_bind, Option.bind_eq_some_iff] at hsetup
  obtain ⟨s₁, hbefore, s₂, hinit, hafter⟩ := hsetup
  obtain ⟨h₁, heq₁⟩ := creates_created (hnew ▸ Broker.created_new) hbefore
  obtain ⟨h₂, hof⟩ := init_created (s := s₁) h₁ (by rw [heq₁]; exact hcapacity) hinit
  obtain ⟨h₃, heq₃⟩ := creates_created h₂ hafter
  refine ⟨h₃, rfl, ?_, ?_, ?_⟩
  · rw [show s'.uptimePub = s₂.uptimePub by rw [heq₃]]
    exact h₂.mem_publishers_append h₃ hof.uptimePub
  · rw [show s'.latencyPub = s₂.latencyPub by rw [heq₃]]
    exact h₂.mem_publishers_append h₃ hof.latencyPub
  · rw [heq₃]
    exact hof.toCbor

section

variable (hT : T.Documented)
include hT

theorem says_send {p : Resource} (hp : p ∈ B.publishers) (bs : Bytes) :
    Says B [.outgoing (Publisher.send T p bs)] [.publish ⟨p.id, bs⟩] :=
  says_outgoing (writes_message (m := .publish ⟨p.id, bs⟩) rfl
    (MsgPublish.reflect_finished hT (.new T 100) ⟨p.id, bs⟩)) ⟨p, hp, rfl⟩

theorem says_sendSubscriber {toCbor : CborSerializer T} (hcapacity : toCbor.capacity = 100)
    {sub : Subscriber} (hsub : sub ∈ B.subscribers) :
    (sendSubscriber toCbor sub).1.capacity = 100 ∧
      Says B (sendSubscriber toCbor sub).2 [.subscriber ⟨sub.id, sub.key⟩] := by
  have hdone := reflectRegistration_finished hT toCbor .subscriber sub.id sub.key
  exact ⟨hdone.capacity.trans hcapacity, says_outgoing
    (writes_message (m := .subscriber ⟨sub.id, sub.key⟩) hcapacity hdone) ⟨sub, hsub, rfl⟩⟩

theorem says_sendPublisher {toCbor : CborSerializer T} (hcapacity : toCbor.capacity = 100)
    {pub : Resource} (hpub : pub ∈ B.publishers) :
    (sendPublisher toCbor pub).1.capacity = 100 ∧
      Says B (sendPublisher toCbor pub).2 [.publisher ⟨pub.id, pub.key⟩] := by
  have hdone := reflectRegistration_finished hT toCbor .publisher pub.id pub.key
  exact ⟨hdone.capacity.trans hcapacity, says_outgoing
    (writes_message (m := .publisher ⟨pub.id, pub.key⟩) hcapacity hdone) ⟨pub, hpub, rfl⟩⟩

variable {s : BrokerSerial T} (hs : s.IsOf B)
include hs

/-- **The registrations**: the two loops go over every resource. -/
theorem onConnect_speaks : s.onConnect.1.IsOf B ∧ ∃ ms, Says B s.onConnect.2 ms := by
  obtain rfl := hs.broker
  have hsubscribers (toCbor : CborSerializer T) (hcapacity : toCbor.capacity = 100) :
      ∀ sub ∈ s.broker.subscribers, (sendSubscriber toCbor sub).1.capacity = 100 ∧
        Says s.broker (sendSubscriber toCbor sub).2 [.subscriber ⟨sub.id, sub.key⟩] :=
    fun _ hsub => says_sendSubscriber hT hcapacity hsub
  have hpublishers (toCbor : CborSerializer T) (hcapacity : toCbor.capacity = 100) :
      ∀ pub ∈ s.broker.publishers, (sendPublisher toCbor pub).1.capacity = 100 ∧
        Says s.broker (sendPublisher toCbor pub).2 [.publisher ⟨pub.id, pub.key⟩] :=
    fun _ hpub => says_sendPublisher hT hcapacity hpub
  obtain ⟨hroom, hsubs⟩ := says_loop hsubscribers hs.toCbor
  obtain ⟨hroom', hpubs⟩ := says_loop hpublishers hroom
  -- the second loop goes on with the serializer that the first has left
  have hboth := hsubs.append hpubs
  refine ⟨⟨rfl, hs.uptimePub, hs.latencyPub, hroom'⟩, _, hboth.writes, hboth.isOf, fun _ => ?_⟩
  exact ⟨fun sub hsub => List.mem_append_left _ (List.mem_map.mpr ⟨sub, hsub, rfl⟩),
    fun pub hpub => List.mem_append_right _ (List.mem_map.mpr ⟨pub, hpub, rfl⟩)⟩

theorem onPublish_speaks (frame : Bytes) :
    (s.onPublish frame).1.IsOf B ∧ ∃ ms, Says B (s.onPublish frame).2 ms := by
  rw [onPublish]
  dsimp only
  split
  · exact ⟨⟨hs.broker, hs.uptimePub, hs.latencyPub, hs.toCbor⟩, [], says_nil⟩
  · rw [Publisher.on_eq_send hT]
    exact ⟨⟨hs.broker, hs.uptimePub, hs.latencyPub, hs.toCbor⟩, _, says_send hT hs.latencyPub _⟩

theorem handle_speaks (frame : Bytes) (i : Incoming) :
    (handle frame s i).1.IsOf B ∧ ∃ ms, Says B (handle frame s i).2 ms := by
  have hkept (filters : Incoming → MsgFilter T) : ({ s with filters } : BrokerSerial T).IsOf B :=
    ⟨hs.broker, hs.uptimePub, hs.latencyPub, hs.toCbor⟩
  rw [handle]
  dsimp only
  split
  · exact ⟨hkept _, [], says_nil⟩
  · cases i with
    | publish => exact onPublish_speaks hT (hkept _) _
    | connect => exact onConnect_speaks hT (hkept _)
    | disconnect => exact ⟨hkept _, [], says_nil⟩

/-- **Any frame**, whatever it is. -/
theorem onFrame_speaks (frame : Bytes) :
    (s.onFrame frame).1.IsOf B ∧ ∃ ms, Says B (s.onFrame frame).2 ms :=
  says_run (fun _ i hs => handle_speaks hT hs frame i) hs _

/-- **One step of the micro-controller**: it says something about its own resources, and
registers all of them if a connect message has come in. -/
theorem step_speaks (i : MicroInput) :
    (s.step i).1.IsOf B ∧ ∃ ms, Says B (s.step i).2 ms := by
  cases i with
  | keepAlive millis =>
    rw [step, onKeepAlive]
    split
    · rw [Publisher.on_eq_send hT]
      exact ⟨hs, _, says_send hT hs.uptimePub _⟩
    · have hdone := MsgConnect.reflect_finished hT s.toCbor ⟨brokerSrcPrefix⟩
      exact ⟨⟨hs.broker, hs.uptimePub, hs.latencyPub, hdone.capacity.trans hs.toCbor⟩, _,
        says_outgoing (writes_message (m := .connect ⟨brokerSrcPrefix⟩) hs.toCbor hdone) rfl⟩
  | connectTimer millis =>
    exact ⟨⟨hs.broker, hs.uptimePub, hs.latencyPub, hs.toCbor⟩, [], says_nil⟩
  | client n bs =>
    rw [step, onClient]
    split
    · rename_i p hp
      rw [hs.broker] at hp
      exact ⟨hs, _, says_send hT (List.mem_of_getElem? hp) bs⟩
    · exact ⟨hs, [], says_nil⟩
  -- the receiver is no part of what is kept, so only its frames matter
  | rxd c =>
    have hrx : ({ s with bytesToFrame := (BytesToFrame.handleRxd s.bytesToFrame c).1 } :
        BrokerSerial T).IsOf B := ⟨hs.broker, hs.uptimePub, hs.latencyPub, hs.toCbor⟩
    exact says_run (fun _ frame hs => onFrame_speaks hT hs frame) hrx
      (emitted (BytesToFrame.handleRxd s.bytesToFrame c).2)

end

/-! ## Waiting for the answer -/

/-- The micro-controller has been set up, has not been answered, and has nothing kept. -/
structure Waiting (B : Broker) (s : BrokerSerial T) : Prop where
  isOf : s.IsOf B
  connected : s.connected = false
  toCbor : s.toCbor.assertFailed = false
  filters : ∀ i, (s.filters i).IsFor i.msgType.code
  bytesToFrame : s.bytesToFrame.inputFrame = []

/-- The messages that register every resource. -/
def registrations (B : Broker) : List UpMessage :=
  B.subscribers.map (fun s => .subscriber ⟨s.id, s.key⟩)
    ++ B.publishers.map fun p => .publisher ⟨p.id, p.key⟩

/-- A serializer of 100 octets that has not failed. -/
structure Usable (toCbor : CborSerializer T) : Prop where
  capacity : toCbor.capacity = 100
  assertFailed : toCbor.assertFailed = false

/-- A message that fits is made, and the serializer stays usable. -/
theorem Usable.message {toCbor toCbor' : CborSerializer T} (h : Usable toCbor) {bs : Bytes}
    (hdone : Finished toCbor bs toCbor') (hfit : bs.length ≤ 100) :
    Usable toCbor' ∧ toCbor'.message = some bs := by
  refine ⟨⟨hdone.capacity.trans h.capacity, ?_⟩, ?_⟩
  · rw [hdone.asserts, h.assertFailed, h.capacity]
    simpa using hfit
  · exact (message_eq_some h.assertFailed hdone).mpr ⟨rfl, h.capacity ▸ hfit⟩

theorem Usable.loop {α : Type} {send : CborSerializer T → α → CborSerializer T × List MicroEvent}
    {msg : α → UpMessage} {as : List α}
    (hsend : ∀ toCbor, Usable toCbor → ∀ a ∈ as, Usable (send toCbor a).1 ∧
      (send toCbor a).2 = [.outgoing (some (encodeArray (msg a).elements))])
    {toCbor : CborSerializer T} (h : Usable toCbor) :
    Usable (Mealy.run send toCbor as).1 ∧ (Mealy.run send toCbor as).2
      = as.map fun a => .outgoing (some (encodeArray (msg a).elements)) := by
  induction as generalizing toCbor with
  | nil => exact ⟨h, rfl⟩
  | cons a as ih =>
    obtain ⟨husable, hevents⟩ := hsend toCbor h a List.mem_cons_self
    obtain ⟨husables, heventss⟩ :=
      ih (fun t ht a' ha' => hsend t ht a' (List.mem_cons_of_mem _ ha')) husable
    exact ⟨husables, by rw [Mealy.run_cons, hevents, heventss]; rfl⟩

section

variable (hT : T.Documented) {s : BrokerSerial T}
include hT

theorem onConnect_sends (hs : s.IsOf B) (hassert : s.toCbor.assertFailed = false)
    (hfits : ∀ m ∈ registrations B, (encodeArray m.elements).length ≤ 100) :
    s.onConnect.2 = .connected ::
      (registrations B).map fun m => .outgoing (some (encodeArray m.elements)) := by
  obtain rfl := hs.broker
  have hsubscribers (toCbor : CborSerializer T) (husable : Usable toCbor) :
      ∀ sub ∈ s.broker.subscribers, Usable (sendSubscriber toCbor sub).1 ∧
        (sendSubscriber toCbor sub).2 = [.outgoing (some (encodeArray
          (UpMessage.subscriber ⟨sub.id, sub.key⟩).elements))] := fun sub hsub => by
    obtain ⟨husable', hmessage⟩ := husable.message
      (reflectRegistration_finished hT toCbor .subscriber sub.id sub.key)
      (hfits _ (List.mem_append_left _ (List.mem_map.mpr ⟨sub, hsub, rfl⟩)))
    exact ⟨husable', congrArg (fun out => [MicroEvent.outgoing out]) hmessage⟩
  have hpublishers (toCbor : CborSerializer T) (husable : Usable toCbor) :
      ∀ pub ∈ s.broker.publishers, Usable (sendPublisher toCbor pub).1 ∧
        (sendPublisher toCbor pub).2 = [.outgoing (some (encodeArray
          (UpMessage.publisher ⟨pub.id, pub.key⟩).elements))] := fun pub hpub => by
    obtain ⟨husable', hmessage⟩ := husable.message
      (reflectRegistration_finished hT toCbor .publisher pub.id pub.key)
      (hfits _ (List.mem_append_right _ (List.mem_map.mpr ⟨pub, hpub, rfl⟩)))
    exact ⟨husable', congrArg (fun out => [MicroEvent.outgoing out]) hmessage⟩
  obtain ⟨husable, hsubs⟩ := Usable.loop hsubscribers ⟨hs.toCbor, hassert⟩
  obtain ⟨-, hpubs⟩ := Usable.loop hpublishers husable
  simp only [BrokerSerial.onConnect, hsubs, hpubs, registrations, List.map_append, List.map_map,
    Function.comp_def]

variable (h : s.Waiting B)
include h

theorem Waiting.onKeepAlive (millis : UInt64) :
    (s.onKeepAlive millis).1.Waiting B ∧ (s.onKeepAlive millis).2
      = [.outgoing (some (encodeArray (MsgConnect.elements ⟨brokerSrcPrefix⟩)))] := by
  obtain ⟨husable, hmessage⟩ := Usable.message ⟨h.isOf.toCbor, h.toCbor⟩
    (MsgConnect.reflect_finished hT s.toCbor ⟨brokerSrcPrefix⟩) (by decide)
  simp only [BrokerSerial.onKeepAlive, h.connected, Bool.false_eq_true, if_false, hmessage]
  exact ⟨⟨⟨h.isOf.broker, h.isOf.uptimePub, h.isOf.latencyPub, husable.capacity⟩, rfl,
    husable.assertFailed, h.filters, h.bytesToFrame⟩, trivial⟩

omit hT h in
/-- A frame that does not pass a filter changes that filter only. -/
theorem handle_of_not_passes {frame : Bytes} {i : Incoming}
    (hpass : (s.filters i).passes frame = false) :
    handle frame s i
      = ({ s with filters := Function.update s.filters i ((s.filters i).on frame).1 }, []) := by
  have hout := (s.filters i).on_eq frame
  rw [hpass] at hout
  simp only [handle, hout, Bool.false_eq_true, if_false]

omit hT h in
/-- A frame that passes a filter goes on to the flow behind it. -/
theorem handle_of_passes {frame : Bytes} {i : Incoming}
    (hpass : (s.filters i).passes frame = true) :
    handle frame s i = onIncoming
      { s with filters := Function.update s.filters i ((s.filters i).on frame).1 } frame i := by
  have hout := (s.filters i).on_eq frame
  rw [hpass, if_pos rfl] at hout
  simp only [handle, hout]

/-- The reply of the proxy passes one filter of the three. -/
theorem Waiting.onFrame_connect {m : MsgConnect} (hm : ∀ x ∈ m.elements, x.Fits)
    (hlen : (encodeArray m.elements).length ≤ 1024)
    (hfits : ∀ m ∈ registrations B, (encodeArray m.elements).length ≤ 100) :
    (s.onFrame (encodeArray m.elements)).2 = .connected ::
      (registrations B).map fun m => .outgoing (some (encodeArray m.elements)) := by
  have hpasses {f : MsgFilter T} {i : Incoming} (hf : f.IsFor i.msgType.code) :
      f.passes (encodeArray m.elements) = true ↔ i = .connect := by
    rw [MsgConnect.elements, hf.passes_encodeArray hT (MsgType.isInt32_code _)
      (fun x hx => hm x (List.mem_cons_of_mem _ hx)) hlen, MsgType.code_inj]
    cases i <;> decide
  have hskips {s : BrokerSerial T} {i : Incoming} (hi : i ≠ .connect)
      (hf : (s.filters i).IsFor i.msgType.code) :
      (s.filters i).passes (encodeArray m.elements) = false :=
    Bool.eq_false_iff.mpr fun hpass => hi ((hpasses hf).mp hpass)
  -- the states before the second and the third filter; the third is still as it was
  let s₁ : BrokerSerial T := { s with
    filters := Function.update s.filters .publish
      ((s.filters .publish).on (encodeArray m.elements)).1 }
  let s₂ : BrokerSerial T := { s₁ with
    filters := Function.update s₁.filters .connect
      ((s₁.filters .connect).on (encodeArray m.elements)).1 }
  have hpublish : handle (encodeArray m.elements) s .publish = (s₁, []) :=
    handle_of_not_passes (hskips (i := .publish) (by decide) (h.filters .publish))
  have hconnect : handle (encodeArray m.elements) s₁ .connect = s₂.onConnect :=
    handle_of_passes ((hpasses (i := .connect) (h.filters .connect)).mpr rfl)
  have hdisconnect := handle_of_not_passes
    (hskips (s := s₂.onConnect.1) (i := .disconnect) (by decide) (h.filters .disconnect))
  have hsends := onConnect_sends hT (s := s₂)
    ⟨h.isOf.broker, h.isOf.uptimePub, h.isOf.latencyPub, h.isOf.toCbor⟩ h.toCbor hfits
  rw [onFrame, Incoming.all, Mealy.run_cons, hpublish, Mealy.run_cons, hconnect,
    Mealy.run_singleton, hdisconnect]
  simpa using hsends

/-- The same on the serial line, in one piece. -/
theorem Waiting.onRxd_connect {m : MsgConnect} (hm : ∀ x ∈ m.elements, x.Fits)
    (hlen : (encodeArray m.elements).length ≤ 1024)
    (hfits : ∀ m ∈ registrations B, (encodeArray m.elements).length ≤ 100) :
    (s.onRxd (chunkAt s.bytesToFrame.lastFrameFlag ([encodeArray m.elements].flatMap pppFrame))).2
      = .connected ::
        (registrations B).map fun m => .outgoing (some (encodeArray m.elements)) := by
  have hne : ∀ p ∈ [encodeArray m.elements], p ≠ [] := by simp [encodeArray]
  obtain ⟨hkept, hemitted⟩ := FrameRx.handleRxd_chunkAt (fun _ bs => bs) h.bytesToFrame hne
  have hwaiting (rx : FrameRx) (hrx : rx.inputFrame = []) :
      ({ s with bytesToFrame := rx } : BrokerSerial T).Waiting B :=
    ⟨⟨h.isOf.broker, h.isOf.uptimePub, h.isOf.latencyPub, h.isOf.toCbor⟩, h.connected, h.toCbor,
      h.filters, hrx⟩
  rw [onRxd, BytesToFrame.handleRxd]
  dsimp only
  rw [hemitted, Mealy.run_singleton]
  exact (hwaiting _ hkept).onFrame_connect hT hm hlen hfits

end

theorem registrations_isOf {m : UpMessage} (hm : m ∈ registrations B) : m.IsOf B := by
  simp only [registrations, List.mem_append, List.mem_map] at hm
  rcases hm with ⟨s, hs, rfl⟩ | ⟨p, hp, rfl⟩
  · exact ⟨s, hs, rfl⟩
  · exact ⟨p, hp, rfl⟩

/-- After `setup` the micro-controller waits, if the constructor has left it fit to. -/
theorem setup_waiting {s s' : BrokerSerial T} {before after : List Creation}
    (hnew : s.broker = .new) (hcapacity : s.toCbor.capacity = 100)
    (hassert : s.toCbor.assertFailed = false) (hkept : s.bytesToFrame.inputFrame = [])
    (hsetup : s.setup before after = some s') : s'.Waiting s'.broker := by
  have hof := (setup_created hnew hcapacity hsetup).2
  simp only [setup, creates, init, Option.bind_eq_bind, Option.bind_eq_some_iff,
    Option.map_eq_some_iff, Option.some.injEq, Prod.exists] at hsetup
  obtain ⟨_, ⟨_, -, rfl⟩, _, ⟨_, _, -, _, _, -, _, _, -, rfl⟩, _, -, rfl⟩ := hsetup
  exact ⟨hof, rfl, hassert, fun _ => ⟨rfl, rfl⟩, hkept⟩

end BrokerSerial

end ZenohProxy
