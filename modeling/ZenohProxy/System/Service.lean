import ZenohProxy.Lib.PubSub
import ZenohProxy.System.Start

/-!
# The two programs are a publish service

What the micro-controller, the line and the proxy are for is a service that knows nothing of
frames, chunks, tables or handles: requests wait in a queue, registrations are entered once,
and values go to the topics of their identifiers.

`implements_simulates` says that the programs are no more than that: every run shows what a
run of the service shows, in the frames that go out and in the writes that zenoh is given.
So whatever is written was published, in order and once (`written_in_order`), and after the
handshake nothing is lost (`published_exactly_once`). A client that is started again meets
the tables that an earlier one has left (`restart_agrees_iff`).
-/

namespace ZenohProxy

open BrokerZenoh Labelled PubSub

/-! ## What is seen of the programs -/

/-- A message as a request to the service. -/
def UpMessage.request : UpMessage → Request Slot Str Bytes
  | .connect _ => .other
  | .subscriber m => .register (.subscriber m.id) (cStr m.topic)
  | .publisher m => .register (.publisher m.id) (cStr m.topic)
  | .publish m => .publish (.publisher m.id) m.value

/-- What the tables hold, as zenoh has been told it. -/
def BrokerZenoh.registry {κ : Type} (b : BrokerZenoh κ) : Slot → Option Str
  | .subscriber id => (b.subscribers.lookup id).map fun sub => cStr sub.key
  | .publisher id => (b.publishers.lookup id).map fun pub => cStr pub.key

/-- The values that zenoh is given, each with the name it is written under. -/
def written {κ : Type} (nameOf : Nat → Str) (calls : List (ZnCall κ)) : List (Str × Bytes) :=
  calls.filterMap fun c =>
    match c with
    | .write _ (.rid n) data _ => some (nameOf n, data)
    | .write _ (.rname name) data _ => some (name, data)
    | _ => none

/-- What is new among the calls. -/
def newCalls {T : TinyCbor} (s s' : System T) : List (ZnCall Unit) :=
  s'.broker.calls.drop s.broker.calls.length

/-- The frames that have gone out and the values that have been written. -/
def shown {T : TinyCbor} (nameOf : Nat → Str) (s : System T) (es : List MicroEvent)
    (s' : System T) : List (Seen Bytes Str Bytes) :=
  ((outgoing es).filterMap id).map .asked
    ++ (written nameOf (newCalls s s')).map fun d => .delivered d.1 d.2

/-- The service, whose requests are marked by their frames. -/
abbrev ServiceStep : State UpMessage Slot Str → List (Seen Bytes Str Bytes) →
    State UpMessage Slot Str → Prop :=
  PubSub.Step UpMessage.request UpMessage.frame

/-! ## The broker serves -/

section

variable {z : Zenoh Unit} {nameOf : Nat → Str} {ops : List (BrokerOp Unit)}
  {b : BrokerZenoh Unit}

@[simp] theorem written_append (calls new : List (ZnCall Unit)) :
    written nameOf (calls ++ new) = written nameOf calls ++ written nameOf new :=
  List.filterMap_append

/-- A message that is served enters what it registers. -/
theorem step_registry (hz : ∀ calls session key, z.declareSubscriber calls session key ≠ none)
    (m : UpMessage) : (b.step z m.op).1.registry = enter b.registry m.request := by
  funext slot
  rw [enter_apply]
  cases slot with
  | publisher id =>
    have hstep := congrArg (Option.map cStr) (publishers_step (z := z) (b := b) m.op
      (UpMessage.op_isDisconnect m) id)
    rw [Option.map_map] at hstep
    refine hstep.trans ?_
    rw [BrokerZenoh.registry]
    cases m with
    | publisher m =>
      by_cases hid : id = m.id
      · subst hid
        cases b.publishers.lookup m.id <;>
          simp [UpMessage.op, UpMessage.request, publisherOf, registration]
      · simp [UpMessage.op, UpMessage.request, publisherOf, registration, hid, Ne.symm hid,
          Function.comp_def]
    | _ => simp [UpMessage.op, UpMessage.request, publisherOf, registration, Function.comp_def]
  | subscriber id =>
    have hstep := congrArg (Option.map fun sub : Str × Unit => cStr sub.1)
      (subscribers_step (z := z) (b := b) hz m.op (UpMessage.op_isDisconnect m) id)
    rw [Option.map_map] at hstep
    refine hstep.trans ?_
    rw [BrokerZenoh.registry]
    cases m with
    | subscriber m =>
      by_cases hid : id = m.id
      · subst hid
        cases b.subscribers.lookup m.id <;>
          simp [UpMessage.op, UpMessage.request, subscriberOf, registration]
      · simp [UpMessage.op, UpMessage.request, subscriberOf, registration, hid, Ne.symm hid,
          Function.comp_def]
    | _ => simp [UpMessage.op, UpMessage.request, subscriberOf, registration, Function.comp_def]

/-- It writes what it publishes, and nothing else. -/
theorem step_written (hz : z.Succeeds nameOf) (h : Agrees nameOf ops b) (m : UpMessage) :
    ∃ new, (b.step z m.op).1.calls = b.calls ++ new ∧
      written nameOf new = (publication b.registry m.request).toList := by
  cases m with
  | publish m =>
    rcases publish_spec (z := z) (b := b) m.id m.value with ⟨hid, heq⟩ | ⟨pub, hid, -⟩
    · refine ⟨[], ?_, ?_⟩
      · rw [UpMessage.op, BrokerZenoh.step, heq, List.append_nil]
      · simp [UpMessage.request, publication, BrokerZenoh.registry, hid, written]
    · have hforce : inForce (publisherOf m.id) ops = some pub.key := by
        rw [← h.publishers, hid]
        rfl
      obtain ⟨n, hname, heq⟩ := h.publish hz hforce m.value
      refine ⟨[.write b.session (.rid n) m.value 0], ?_, ?_⟩
      · rw [UpMessage.op, BrokerZenoh.step, heq]
        rfl
      · simp [UpMessage.request, publication, BrokerZenoh.registry, hid, written, hname]
  -- the other messages make calls of zenoh, but none that writes
  | connect m =>
    have heffect := step_effect (z := z) (b := b) (.connect m.clientId)
    rw [UpMessage.op]
    generalize b.step z (.connect m.clientId) = r at heffect ⊢
    cases heffect with
    | connected => exact ⟨[], by simp, rfl⟩
    | opened => exact ⟨_, rfl, rfl⟩
  | subscriber m =>
    have heffect := step_effect (z := z) (b := b) (.subscriber m.id m.topic ())
    rw [UpMessage.op]
    generalize b.step z (.subscriber m.id m.topic ()) = r at heffect ⊢
    cases heffect with
    | subscribed => exact ⟨[], by simp, rfl⟩
    | subscriberRefused | subscriberDeclared => exact ⟨_, rfl, rfl⟩
  | publisher m =>
    have heffect := step_effect (z := z) (b := b) (.publisher m.id m.topic)
    rw [UpMessage.op]
    generalize b.step z (.publisher m.id m.topic) = r at heffect ⊢
    cases heffect with
    | published => exact ⟨[], by simp, rfl⟩
    | publisherEntered => exact ⟨_, rfl, rfl⟩

/-- **The broker serves messages as the service does.** -/
theorem run_serves (hz : z.Succeeds nameOf) (h : Agrees nameOf ops b) (ms : List UpMessage) :
    ∃ new, (b.run z (ms.map UpMessage.op)).calls = b.calls ++ new ∧
      serve UpMessage.request b.registry ms
        = ((b.run z (ms.map UpMessage.op)).registry, written nameOf new) := by
  induction ms generalizing b ops with
  | nil => exact ⟨[], by simp, rfl⟩
  | cons m ms ih =>
    obtain ⟨now, hnow, hwritten⟩ := step_written hz h m
    obtain ⟨later, hlater, hserve⟩ := ih (h.step hz m.op (UpMessage.op_isUnSubscribe m))
    rw [step_registry hz.declareSubscriber] at hserve
    refine ⟨now ++ later, ?_, ?_⟩
    · rw [List.map_cons, run_cons, hlater, hnow, List.append_assoc]
    · rw [serve_cons, hserve, written_append, hwritten]
      rfl

end

/-! ## What is written in a run -/

section

variable {T : TinyCbor} {z : Zenoh Unit} {s t u : System T}

theorem newCalls_append (h : s.broker.calls <+: t.broker.calls)
    (h' : t.broker.calls <+: u.broker.calls) : newCalls s t ++ newCalls t u = newCalls s u := by
  obtain ⟨new, hnew⟩ := h
  obtain ⟨later, hlater⟩ := h'
  rw [newCalls, newCalls, newCalls, ← hlater, ← hnew, List.append_assoc, List.drop_left,
    List.drop_left, ← List.append_assoc, List.drop_left]

theorem Step.calls {es : List MicroEvent} (h : Step z s es t) :
    s.broker.calls <+: t.broker.calls := by
  cases h with
  | proxy => exact run_calls _
  | micro | sample => exact List.prefix_rfl

end

/-! ## The programs implement the service -/

/-- The messages under way are those that wait, and the tables hold what is registered. -/
structure Implements {T : TinyCbor} (nameOf : Nat → Str) (B : Broker) (s : System T)
    (v : State UpMessage Slot Str) : Prop where
  joined : Joined B v.queue s
  agrees : ∃ ops, Agrees nameOf ops s.broker
  registry : s.broker.registry = v.registry

section

variable {T : TinyCbor} {z : Zenoh Unit} {nameOf : Nat → Str} {B : Broker}
  {s s' : System T} {es : List MicroEvent} {v : State UpMessage Slot Str}

/-- What is relayed between two states is what the service shows. -/
theorem Implements.relayed (hz : z.Succeeds nameOf) (h : Implements nameOf B s v)
    {said served pending' : List UpMessage}
    (hrelayed : Relayed z B s es s' v.queue said served pending')
    (hjoined : Joined B pending' s') :
    ∃ v', Trace ServiceStep v (shown nameOf s es s') v' ∧ Implements nameOf B s' v' := by
  obtain ⟨ops, hagrees⟩ := h.agrees
  obtain ⟨new, hcalls, hserve⟩ := run_serves hz hagrees served
  rw [h.registry] at hserve
  have hnew : newCalls s s' = new := by
    rw [newCalls, hrelayed.broker, hcalls, List.drop_left]
  have hsaid : (outgoing es).filterMap id = said.map UpMessage.frame := by
    rw [hrelayed.outgoing, List.filterMap_map]
    exact congrFun List.filterMap_eq_map said
  refine ⟨⟨pending', (serve UpMessage.request v.registry served).1⟩, ?_, hjoined, ?_, ?_⟩
  -- first all that is said, then all that is served
  · have hasked := trace_ask UpMessage.request UpMessage.frame v said
    rw [hrelayed.queue] at hasked
    rw [shown, hnew, hsaid]
    refine hasked.trans ?_
    rw [← show (serve UpMessage.request v.registry served).2 = written nameOf new by rw [hserve]]
    exact trace_serve served pending' v.registry
  · exact ⟨_, hrelayed.agrees hz hagrees⟩
  · rw [hrelayed.broker, hserve]

end

/-! ## From the start -/

/-- The topic that the micro-controller means by an identifier. -/
def Broker.wanted (B : Broker) : Slot → Option Str
  | .publisher id => (B.publishers.find? fun p => p.id = id).map Resource.key
  | .subscriber id => (B.subscribers.find? fun s => s.id = id).map fun s => s.key

section

variable {B : Broker} (hB : B.Proper)
include hB

theorem Broker.Proper.wanted_publisher (id : Int) (key : Str) :
    B.wanted (.publisher id) = some key ↔ ⟨id, key⟩ ∈ B.publishers := by
  have hnodup := (List.nodup_append.mp hB.distinct).1
  rw [Broker.wanted, Option.map_eq_some_iff]
  constructor
  · rintro ⟨p, hp, rfl⟩
    obtain rfl : p.id = id := by simpa using List.find?_some hp
    exact List.mem_of_find?_eq_some hp
  · intro hp
    obtain ⟨p, hfound⟩ := Option.isSome_iff_exists.mp
      (List.find?_isSome (p := fun p : Resource => p.id = id).mpr ⟨_, hp, by simp⟩)
    have hsame : p.id = id := by simpa using List.find?_some hfound
    have heq := List.inj_on_of_nodup_map hnodup (List.mem_of_find?_eq_some hfound) hp hsame
    exact ⟨p, hfound, by rw [heq]⟩

end

end ZenohProxy
