import ZenohProxy.Micro.BrokerSerial

/-!
# What the micro-controller survives

A failing assertion of a serializer stops the program. The messages that the library makes
by itself, the announcement, the uptime and the latency, always fit; those that register a
resource fit or not once and for all. So if they fit, no byte that comes in, however it is
cut and whenever it comes, and no timer makes an assertion fail: only a client that gives a
value which does not fit does (`step_sound`, `micro_endures_iff`).
-/

namespace ZenohProxy

open Cbor (encodeArray)
open CborSerializer

namespace BrokerSerial

variable {T : TinyCbor} {B : Broker}

/-- The filters are those of `init`, and no assertion has failed. -/
structure Sound (B : Broker) (s : BrokerSerial T) : Prop where
  isOf : s.IsOf B
  toCbor : s.toCbor.assertFailed = false
  filters : ∀ i, (s.filters i).IsFor i.msgType.code

/-- Every registration can be made. -/
def Registrable (B : Broker) : Prop :=
  ∀ m ∈ registrations B, (encodeArray m.elements).length ≤ 100

/-- Everything that is handed to `outgoingFrame` has been made. -/
def AllMade (es : List MicroEvent) : Prop := ∀ out ∈ outgoing es, out ≠ none

theorem allMade_nil : AllMade [] := by simp [AllMade, outgoing]

theorem AllMade.append {es es' : List MicroEvent} (h : AllMade es) (h' : AllMade es') :
    AllMade (es ++ es') := by
  intro out hout
  rw [outgoing, List.filterMap_append] at hout
  exact (List.mem_append.mp hout).elim (h out) (h' out)

section

variable (hT : T.Documented)
include hT

theorem Usable.sendSubscriber {toCbor : CborSerializer T} (h : Usable toCbor) {sub : Subscriber}
    (hfit : (encodeArray (UpMessage.subscriber ⟨sub.id, sub.key⟩).elements).length ≤ 100) :
    Usable (sendSubscriber toCbor sub).1 ∧ (BrokerSerial.sendSubscriber toCbor sub).2
      = [.outgoing (some (encodeArray (UpMessage.subscriber ⟨sub.id, sub.key⟩).elements))] := by
  obtain ⟨husable, hmessage⟩ :=
    h.message (reflectRegistration_finished hT toCbor .subscriber sub.id sub.key) hfit
  exact ⟨husable, congrArg (fun out => [MicroEvent.outgoing out]) hmessage⟩

theorem Usable.sendPublisher {toCbor : CborSerializer T} (h : Usable toCbor) {pub : Resource}
    (hfit : (encodeArray (UpMessage.publisher ⟨pub.id, pub.key⟩).elements).length ≤ 100) :
    Usable (sendPublisher toCbor pub).1 ∧ (BrokerSerial.sendPublisher toCbor pub).2
      = [.outgoing (some (encodeArray (UpMessage.publisher ⟨pub.id, pub.key⟩).elements))] := by
  obtain ⟨husable, hmessage⟩ :=
    h.message (reflectRegistration_finished hT toCbor .publisher pub.id pub.key) hfit
  exact ⟨husable, congrArg (fun out => [MicroEvent.outgoing out]) hmessage⟩

/-- Both loops of the registration leave the serializer usable. -/
theorem Usable.register {toCbor : CborSerializer T} (h : Usable toCbor) (hB : Registrable B) :
    Usable (Mealy.run BrokerSerial.sendPublisher
      (Mealy.run BrokerSerial.sendSubscriber toCbor B.subscribers).1 B.publishers).1 := by
  have hsubscribers (t : CborSerializer T) (ht : Usable t) (sub : Subscriber)
      (hsub : sub ∈ B.subscribers) := ht.sendSubscriber hT
    (hB _ (List.mem_append_left _ (List.mem_map.mpr ⟨sub, hsub, rfl⟩)))
  have hpublishers (t : CborSerializer T) (ht : Usable t) (pub : Resource)
      (hpub : pub ∈ B.publishers) := ht.sendPublisher hT
    (hB _ (List.mem_append_right _ (List.mem_map.mpr ⟨pub, hpub, rfl⟩)))
  exact (Usable.loop hpublishers (Usable.loop hsubscribers h).1).1

variable {s : BrokerSerial T} (hB : Registrable B) (hs : s.Sound B)

section

include hB hs

theorem onConnect_sound : s.onConnect.1.Sound B ∧ AllMade s.onConnect.2 := by
  have hspeaks := (onConnect_speaks hT hs.isOf).1
  have hsends := onConnect_sends hT hs.isOf hs.toCbor hB
  refine ⟨⟨hspeaks, ?_, hs.filters⟩, ?_⟩
  · obtain rfl := hs.isOf.broker
    exact (Usable.register hT ⟨hs.isOf.toCbor, hs.toCbor⟩ hB).assertFailed
  · rw [hsends]
    intro out hout hnone
    subst hnone
    simp [outgoing] at hout

omit hB in
theorem onPublish_sound (frame : Bytes) :
    (s.onPublish frame).1.Sound B ∧ AllMade (s.onPublish frame).2 := by
  have hspeaks := (onPublish_speaks hT hs.isOf frame).1
  rw [onPublish] at hspeaks ⊢
  dsimp only at hspeaks ⊢
  split
  · rename_i hout
    rw [hout] at hspeaks
    exact ⟨⟨hspeaks, hs.toCbor, hs.filters⟩, allMade_nil⟩
  · rename_i t hout
    rw [hout] at hspeaks
    refine ⟨⟨hspeaks, hs.toCbor, hs.filters⟩, ?_⟩
    -- the latency is an `int`, whatever came in
    rw [Publisher.on_eq hT rfl]
    simp [AllMade, outgoing]

theorem handle_sound (frame : Bytes) (i : Incoming) :
    (handle frame s i).1.Sound B ∧ AllMade (handle frame s i).2 := by
  have hfilters : ({ s with
      filters := Function.update s.filters i ((s.filters i).on frame).1 } :
      BrokerSerial T).Sound B := by
    refine ⟨⟨hs.isOf.broker, hs.isOf.uptimePub, hs.isOf.latencyPub, hs.isOf.toCbor⟩, hs.toCbor,
      fun j => ?_⟩
    by_cases hj : j = i
    · subst hj
      simp only [Function.update_self]
      exact (hs.filters j).feed [frame]
    · simpa [hj] using hs.filters j
  rw [handle]
  dsimp only
  split
  · exact ⟨hfilters, allMade_nil⟩
  · cases i with
    | publish => exact onPublish_sound hT hfilters _
    | connect => exact onConnect_sound hT hB hfilters
    | disconnect => exact ⟨hfilters, allMade_nil⟩

/-- **Any frame** is survived. -/
theorem onFrame_sound (frame : Bytes) :
    (s.onFrame frame).1.Sound B ∧ AllMade (s.onFrame frame).2 :=
  Mealy.run_puts (P := Sound B) (Q := AllMade) allMade_nil (fun _ _ => AllMade.append)
    (fun _ i hs => handle_sound hT hB hs frame i) hs _

/-- **Any bytes** are. -/
theorem onRxd_sound (c : Chunk) : (s.onRxd c).1.Sound B ∧ AllMade (s.onRxd c).2 :=
  Mealy.run_puts (P := Sound B) (Q := AllMade) allMade_nil (fun _ _ => AllMade.append)
    (fun _ frame hs => onFrame_sound hT hB hs frame)
    (s := { s with bytesToFrame := (BytesToFrame.handleRxd s.bytesToFrame c).1 })
    ⟨⟨hs.isOf.broker, hs.isOf.uptimePub, hs.isOf.latencyPub, hs.isOf.toCbor⟩, hs.toCbor,
      hs.filters⟩ _

omit hB in
theorem onKeepAlive_sound (millis : UInt64) :
    (s.onKeepAlive millis).1.Sound B ∧ AllMade (s.onKeepAlive millis).2 := by
  rw [onKeepAlive]
  split
  · rw [Publisher.on_eq hT rfl]
    exact ⟨hs, by simp [AllMade, outgoing]⟩
  · obtain ⟨husable, hmessage⟩ := Usable.message ⟨hs.isOf.toCbor, hs.toCbor⟩
      (MsgConnect.reflect_finished hT s.toCbor ⟨brokerSrcPrefix⟩) (by decide)
    refine ⟨⟨⟨hs.isOf.broker, hs.isOf.uptimePub, hs.isOf.latencyPub, husable.capacity⟩,
      husable.assertFailed, hs.filters⟩, ?_⟩
    simp [AllMade, outgoing, hmessage]

end

end

/-! ## The receiver and the filters -/

section

variable {s : BrokerSerial T}

/-- A filter and the flow behind it change no other filter, and not the receiver. -/
theorem handle_kept (frame : Bytes) (s : BrokerSerial T) (i : Incoming) :
    (handle frame s i).1.bytesToFrame = s.bytesToFrame ∧
      (handle frame s i).1.filters
        = Function.update s.filters i ((s.filters i).on frame).1 := by
  rw [handle]
  dsimp only
  split
  · exact ⟨rfl, rfl⟩
  · cases i with
    | publish =>
      simp only [onIncoming, onPublish]
      split <;> exact ⟨rfl, rfl⟩
    | connect | disconnect => exact ⟨rfl, rfl⟩

theorem onFrame_kept (frame : Bytes) (s : BrokerSerial T) :
    (s.onFrame frame).1.bytesToFrame = s.bytesToFrame ∧
      ∀ i, (s.onFrame frame).1.filters i = ((s.filters i).on frame).1 := by
  simp only [onFrame, Incoming.all, Mealy.run_cons, Mealy.run_nil]
  refine ⟨?_, fun i => ?_⟩
  · rw [(handle_kept frame _ _).1, (handle_kept frame _ _).1, (handle_kept frame _ _).1]
  · rw [(handle_kept frame _ _).2, (handle_kept frame _ _).2, (handle_kept frame _ _).2]
    cases i <;> simp [Function.update]

/-- What is kept after a chunk is up to the receiver alone, and each filter has seen the
frames. -/
theorem onRxd_kept (s : BrokerSerial T) (c : Chunk) :
    (s.onRxd c).1.bytesToFrame = (BytesToFrame.handleRxd s.bytesToFrame c).1 ∧
      ∀ i, (s.onRxd c).1.filters i
        = (s.filters i).feed (emitted (BytesToFrame.handleRxd s.bytesToFrame c).2) := by
  have hrun (frames : List Bytes) (s : BrokerSerial T) :
      (Mealy.run onFrame s frames).1.bytesToFrame = s.bytesToFrame ∧
        ∀ i, (Mealy.run onFrame s frames).1.filters i = (s.filters i).feed frames := by
    induction frames generalizing s with
    | nil => exact ⟨rfl, fun _ => rfl⟩
    | cons frame frames ih =>
      obtain ⟨hrx, hfilters⟩ := onFrame_kept frame s
      obtain ⟨hrxs, hfilterss⟩ := ih (s.onFrame frame).1
      refine ⟨hrxs.trans hrx, fun i => (hfilterss i).trans ?_⟩
      rw [hfilters]
      rfl
  exact hrun _ _

/-- Of the other inputs none concerns them. -/
theorem step_kept {i : MicroInput} (hi : ∀ c, i ≠ .rxd c) (s : BrokerSerial T) :
    (s.step i).1.bytesToFrame = s.bytesToFrame ∧ (s.step i).1.filters = s.filters := by
  cases i with
  | keepAlive millis =>
    rw [step, onKeepAlive]
    split <;> exact ⟨rfl, rfl⟩
  | connectTimer millis => exact ⟨rfl, rfl⟩
  | client n bs =>
    rw [step, onClient]
    split <;> exact ⟨rfl, rfl⟩
  | rxd c => exact absurd rfl (hi c)

end

end BrokerSerial

/-- A value that the client gives fits, if that is what the input is. -/
def MicroInput.Sendable (B : Broker) : MicroInput → Prop
  | .client n bs => ∀ p, B.publishers[n]? = some p →
    (encodeArray (MsgPublish.elements ⟨p.id, bs⟩)).length ≤ 100
  | _ => True

namespace BrokerSerial

section

variable {T : TinyCbor} {B : Broker} (hT : T.Documented) (hB : Registrable B)
include hT

theorem onClient_sound {s : BrokerSerial T} (hs : s.Sound B) (n : Nat) (bs : Bytes) :
    (s.onClient n bs).1.Sound B ∧
      (AllMade (s.onClient n bs).2 ↔ (MicroInput.client n bs).Sendable B) := by
  obtain rfl := hs.isOf.broker
  rw [onClient]
  cases hp : s.broker.publishers[n]? with
  | none => exact ⟨hs, by simp [AllMade, outgoing, MicroInput.Sendable, hp]⟩
  | some p =>
    refine ⟨hs, ?_⟩
    simp only [AllMade, outgoing, List.filterMap_cons, List.filterMap_nil,
      List.forall_mem_singleton, MicroInput.Sendable, hp, Option.some.injEq, forall_eq']
    rw [Option.ne_none_iff_exists']
    simp only [Publisher.send_eq_some hT]
    constructor
    · rintro ⟨frame, rfl, hfit⟩
      exact hfit
    · exact fun hfit => ⟨_, rfl, hfit⟩

include hB

/-- **One step**: what comes in by itself is survived, and a value if it fits. -/
theorem step_sound {s : BrokerSerial T} (hs : s.Sound B) (i : MicroInput) :
    (s.step i).1.Sound B ∧ (AllMade (s.step i).2 ↔ i.Sendable B) := by
  cases i with
  | keepAlive millis =>
    obtain ⟨hsound, hmade⟩ := onKeepAlive_sound hT hs millis
    exact ⟨hsound, iff_of_true hmade trivial⟩
  | connectTimer millis =>
    exact ⟨⟨⟨hs.isOf.broker, hs.isOf.uptimePub, hs.isOf.latencyPub, hs.isOf.toCbor⟩, hs.toCbor,
      hs.filters⟩, iff_of_true allMade_nil trivial⟩
  | client n bs => exact onClient_sound hT hs n bs
  | rxd c =>
    obtain ⟨hsound, hmade⟩ := onRxd_sound hT hB hs c
    exact ⟨hsound, iff_of_true hmade trivial⟩

theorem run_sound {s : BrokerSerial T} (hs : s.Sound B) (is : List MicroInput) :
    (Mealy.run step s is).1.Sound B ∧
      (AllMade (Mealy.run step s is).2 ↔ ∀ i ∈ is, i.Sendable B) := by
  induction is generalizing s with
  | nil => exact ⟨hs, iff_of_true allMade_nil (by simp)⟩
  | cons i is ih =>
    obtain ⟨hsound, hmade⟩ := step_sound hT hB hs i
    obtain ⟨hsounds, hmades⟩ := ih hsound
    refine ⟨hsounds, ?_⟩
    rw [List.forall_mem_cons, ← hmade, ← hmades]
    refine ⟨fun h => ?_, fun h => h.1.append h.2⟩
    simp only [AllMade, outgoing, Mealy.run_cons, List.filterMap_append, List.forall_mem_append]
      at h
    exact h

end

/-- After `setup` no assertion has failed, if the constructor has left it so. -/
theorem setup_sound {T : TinyCbor} {s s' : BrokerSerial T} {before after : List Creation}
    (hnew : s.broker = .new) (hcapacity : s.toCbor.capacity = 100)
    (hassert : s.toCbor.assertFailed = false) (hsetup : s.setup before after = some s') :
    s'.Sound s'.broker := by
  have hof := (setup_created hnew hcapacity hsetup).2
  simp only [setup, creates, init, Option.bind_eq_bind, Option.bind_eq_some_iff,
    Option.map_eq_some_iff, Option.some.injEq, Prod.exists] at hsetup
  obtain ⟨_, ⟨_, -, rfl⟩, _, ⟨_, _, -, _, _, -, _, _, -, rfl⟩, _, -, rfl⟩ := hsetup
  exact ⟨hof, hassert, fun _ => ⟨rfl, rfl⟩⟩

/-- **Nothing on the line stops the micro-controller.** It has been set up with resources whose
registrations fit. In every run, with any bytes coming in in any chunks, any timers and any
clock, no assertion of the serializer that its messages share fails, and every message is made
if and only if the values that the client gives fit. -/
theorem micro_endures_iff {T : TinyCbor} (hT : T.Documented) (fresh : BrokerSerial T)
    (hbroker : fresh.broker = .new) (hcapacity : fresh.toCbor.capacity = 100)
    (hassert : fresh.toCbor.assertFailed = false) (before after : List Creation)
    (s : BrokerSerial T) (hsetup : fresh.setup before after = some s)
    (hfits : Registrable s.broker) (is : List MicroInput) :
    (Mealy.run step s is).1.toCbor.assertFailed = false ∧
      ((∀ out ∈ outgoing (Mealy.run step s is).2, out ≠ none) ↔
        ∀ i ∈ is, i.Sendable s.broker) := by
  obtain ⟨hsound, hmade⟩ :=
    run_sound hT hfits (setup_sound hbroker hcapacity hassert hsetup) is
  exact ⟨hsound.toCbor, hmade⟩

/-- Two resources, a value that fits and one that does not, and a chunk of other bytes. -/
theorem micro_endures_two : ∃ s,
    (BrokerSerial.new lenient).setup [.publisher (str "a")] [.subscriber (str "b") .string]
      = some s ∧
    let is := [.client 0 [1, 2], .rxd ⟨[(0x7E, 1), (0x83, 2), (0x7E, 3)], 4⟩,
      .client 0 (List.replicate 100 0)]
    (Mealy.run step s is).1.toCbor.assertFailed = false ∧
      ((∀ out ∈ outgoing (Mealy.run step s is).2, out ≠ none) ↔
        ∀ i ∈ is, i.Sendable s.broker) := by
  have hsome : ((BrokerSerial.new lenient).setup [.publisher (str "a")]
      [.subscriber (str "b") .string]).any (fun s =>
        (registrations s.broker).all fun m => (encodeArray m.elements).length ≤ 100) = true := by
    decide +kernel
  obtain ⟨s, hsetup, hfits⟩ := (Option.any_eq_true _ _).mp hsome
  exact ⟨s, hsetup, micro_endures_iff (TinyCbor.reference_documented _) (.new lenient) rfl rfl rfl
    _ _ s hsetup (by simpa [Registrable] using hfits) _⟩

end BrokerSerial

end ZenohProxy
