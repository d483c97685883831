import ZenohProxy.Lib.Simulation
import ZenohProxy.System.Start

/-!
# What reaches the micro-controller

The other direction: zenoh delivers samples when it likes, the proxy answers, and the bytes
of both go down the line. Here the micro-controller, too, takes them in time, so that its
timeout drops nothing.

`samples_arrive`: what comes out of the filter in front of `incomingPublish` is at any time a
first part of the samples, each once and in order, whatever comes up the line meanwhile.
-/

namespace ZenohProxy

open Cbor (encodeArray)
open Labelled

/-- What is seen: an event of the micro-controller, a sample that zenoh delivers, and a frame
that `incomingPublish` is given. -/
inductive LineEvent where
  | said (e : MicroEvent)
  | sampled (id : Int) (data : Bytes)
  | arrived (frame : Bytes)
  deriving DecidableEq

def sampleFrame (id : Int) (data : Bytes) : Bytes := encodeArray (MsgPublish.elements ⟨id, data⟩)

/-- The events of the micro-controller. -/
def saidEvents (os : List LineEvent) : List MicroEvent :=
  os.filterMap fun o =>
    match o with
    | .said e => some e
    | _ => none

def sampledFrames (os : List LineEvent) : List Bytes :=
  os.filterMap fun o =>
    match o with
    | .sampled id data => some (sampleFrame id data)
    | _ => none

def arrivedFrames (os : List LineEvent) : List Bytes :=
  os.filterMap fun o =>
    match o with
    | .arrived frame => some frame
    | _ => none

theorem saidEvents_append (os os' : List LineEvent) :
    saidEvents (os ++ os') = saidEvents os ++ saidEvents os' := List.filterMap_append

theorem sampledFrames_append (os os' : List LineEvent) :
    sampledFrames (os ++ os') = sampledFrames os ++ sampledFrames os' := List.filterMap_append

theorem arrivedFrames_append (os os' : List LineEvent) :
    arrivedFrames (os ++ os') = arrivedFrames os ++ arrivedFrames os' := List.filterMap_append

/-- The events of a step of the micro-controller. -/
def microLine (es : List MicroEvent) (arrivals : List Bytes) : List LineEvent :=
  es.map .said ++ arrivals.map .arrived

@[simp] theorem saidEvents_microLine (es : List MicroEvent) (arrivals : List Bytes) :
    saidEvents (microLine es arrivals) = es := by
  simp [microLine, saidEvents, List.filterMap_map]

@[simp] theorem sampledFrames_microLine (es : List MicroEvent) (arrivals : List Bytes) :
    sampledFrames (microLine es arrivals) = [] := by
  simp [microLine, sampledFrames, List.filterMap_map]

@[simp] theorem arrivedFrames_microLine (es : List MicroEvent) (arrivals : List Bytes) :
    arrivedFrames (microLine es arrivals) = arrivals := by
  simp [microLine, arrivedFrames, List.filterMap_map]

theorem mem_toSerial {events : List ProxyEvent} {msg : Option Bytes} :
    msg ∈ toSerial events ↔ .toSerial msg ∈ events := by
  rw [toSerial, List.mem_filterMap]
  constructor
  · rintro ⟨e, he, hmsg⟩
    cases e with
    | called => cases hmsg
    | toSerial msg' => exact Option.some.inj hmsg ▸ he
  · exact fun h => ⟨_, h, rfl⟩

/-- The filter for publish messages on one frame after the other. -/
def MsgFilter.passed {T : TinyCbor} (f : MsgFilter T) (frames : List Bytes) :
    MsgFilter T × List Bytes :=
  Mealy.run (fun f frame => ((f.on frame).1, (f.on frame).2.toList)) f frames

/-- The frames that an input makes come to `incomingPublish`. -/
def BrokerSerial.arrivals {T : TinyCbor} (s : BrokerSerial T) : MicroInput → List Bytes
  | .rxd c => ((s.filters .publish).passed (emitted (BytesToFrame.handleRxd s.bytesToFrame c).2)).2
  | _ => []

/-- A step in which neither end drops bytes that it keeps, with what is seen of it. -/
inductive PromptStep {T : TinyCbor} (z : Zenoh Unit) :
    System T → List LineEvent → System T → Prop where
  | micro {s : System T} (i : MicroInput) (down : Bytes) (sent : List Bytes)
      (hbytes : s.down = i.bytes ++ down) (hkeeps : ∀ c, i = .rxd c → s.micro.bytesToFrame.Keeps c)
      (hsent : outgoing (s.micro.step i).2 = sent.map some) :
      PromptStep z s (microLine (s.micro.step i).2 (s.micro.arrivals i))
        { s with micro := (s.micro.step i).1, up := s.up ++ sent.flatMap pppFrame, down }
  | proxy {s : System T} (c : Chunk) (up : Bytes) (sent : List Bytes)
      (hbytes : s.up = c.bytes.map Prod.fst ++ up) (hkeeps : s.proxy.bytesToFrame.Keeps c)
      (hsent : toSerial (s.proxy.onChunk c).2 = sent.map some) :
      PromptStep z s []
        { s with
          proxy := (s.proxy.onChunk c).1
          broker := s.broker.run z (brokerOps (s.proxy.onChunk c).2)
          up
          down := s.down ++ sent.flatMap pppFrame }
  | sample {s : System T} (id : Int) (hid : IsInt32 id) (data frame : Bytes)
      (hassert : (s.proxy.proxy.onSample id data).1.toCbor.assertFailed = false)
      (hsent : toSerial (s.proxy.proxy.onSample id data).2 = [some frame]) :
      PromptStep z s [.sampled id data]
        { s with
          proxy := { s.proxy with proxy := (s.proxy.proxy.onSample id data).1 }
          down := s.down ++ pppFrame frame }

section

variable {T : TinyCbor} {z : Zenoh Unit} {s s' : System T} {os : List LineEvent}

/-- It is a step of the system. -/
theorem PromptStep.step (h : PromptStep z s os s') : Step z s (saidEvents os) s' := by
  cases h with
  | micro i down sent hbytes _ hsent =>
    rw [saidEvents_microLine]
    exact .micro i down sent hbytes hsent
  | proxy c up sent hbytes hkeeps hsent => exact .proxy c up sent hbytes hkeeps hsent
  | sample id _ data frame hassert hsent => exact .sample id data frame hassert hsent

end

/-! ## The filter -/

/-- A message to the micro-controller. -/
inductive DownMessage where
  | reply
  | sample (id : Int) (data : Bytes)

def DownMessage.frame : DownMessage → Bytes
  | .reply => connectReplyFrame
  | .sample id data => sampleFrame id data

/-- A sample under an `int` that fits the serializer. -/
def DownMessage.Proper : DownMessage → Prop
  | .reply => True
  | .sample id data => IsInt32 id ∧ (sampleFrame id data).length ≤ 1024

/-- The frames of the samples among some messages. -/
def samplesOf (ms : List DownMessage) : List Bytes :=
  ms.filterMap fun m =>
    match m with
    | .reply => none
    | .sample id data => some (sampleFrame id data)

theorem samplesOf_append (ms ms' : List DownMessage) :
    samplesOf (ms ++ ms') = samplesOf ms ++ samplesOf ms' := List.filterMap_append

section

variable {T : TinyCbor} (hT : T.Documented)
include hT

theorem DownMessage.Proper.passes {m : DownMessage} (hm : m.Proper) {f : MsgFilter T}
    (hf : f.IsFor MsgType.publish.code) :
    (f.on m.frame).2 = (samplesOf [m]).head? := by
  cases m with
  | reply =>
    have hpasses :
        f.passes connectReplyFrame = true ↔ MsgType.connect.code = MsgType.publish.code :=
      hf.passes_encodeArray hT (MsgType.isInt32_code _)
        (fun x hx => fits_single (MsgType.isInt32_code .connect) (by decide) x
          (List.mem_cons_of_mem _ hx)) (by decide)
    rw [frame, f.on_eq, if_neg]
    · rfl
    · rw [hpasses]
      decide
  | sample id data =>
    have hpasses : f.passes (sampleFrame id data) = true :=
      (hf.passes_encodeArray hT (MsgType.isInt32_code _)
        (fun x hx => fits_elements (MsgType.isInt32_code .publish) hm.1 hm.2 x
          (List.mem_cons_of_mem _ hx)) hm.2).mpr rfl
    rw [frame, f.on_eq, if_pos hpasses]
    rfl

/-- **The samples pass and nothing else does.** -/
theorem MsgFilter.IsFor.passed_samples {f : MsgFilter T} (hf : f.IsFor MsgType.publish.code)
    {ms : List DownMessage} (hms : ∀ m ∈ ms, m.Proper) :
    (f.passed (ms.map DownMessage.frame)).2 = samplesOf ms := by
  induction ms generalizing f with
  | nil => rfl
  | cons m ms ih =>
    have hrest := ih (hf.feed [m.frame]) fun m' h => hms m' (List.mem_cons_of_mem _ h)
    rw [List.map_cons, passed, Mealy.run_cons, ← passed, ← List.singleton_append,
      samplesOf_append]
    refine congrArg₂ (· ++ ·) ?_ hrest
    rw [(hms m List.mem_cons_self).passes hT hf]
    cases m <;> rfl

end

/-! ## What is under way -/

/-- The messages that wait on the way down. -/
structure Downward {T : TinyCbor} (waiting : List DownMessage) (s : System T) : Prop where
  ready : s.proxy.proxy.Ready
  toCbor : s.proxy.proxy.toCbor.assertFailed = false
  filter : (s.micro.filters .publish).IsFor MsgType.publish.code
  link : InFlight s.micro.bytesToFrame.inputFrame s.down (waiting.map DownMessage.frame)
  proper : ∀ m ∈ waiting, m.Proper

theorem DownMessage.frame_ne_nil (ms : List DownMessage) :
    ∀ f ∈ ms.map DownMessage.frame, f ≠ [] := by
  intro f hf
  obtain ⟨m, -, rfl⟩ := List.mem_map.mp hf
  cases m <;> exact List.cons_ne_nil _ _

section

variable {T : TinyCbor} {z : Zenoh Unit} {s s' : System T} {os : List LineEvent}
  {waiting : List DownMessage}

theorem MicroInput.bytes_eq_nil {i : MicroInput} (hi : ∀ c, i ≠ .rxd c) : i.bytes = [] := by
  cases i with
  | rxd c => exact absurd rfl (hi c)
  | _ => rfl

theorem BrokerSerial.arrivals_eq_nil {i : MicroInput} (hi : ∀ c, i ≠ .rxd c)
    (s : BrokerSerial T) : s.arrivals i = [] := by
  cases i with
  | rxd c => exact absurd rfl (hi c)
  | _ => rfl

/-- A timer or the client leaves what is on the way down. -/
theorem Downward.other (h : Downward waiting s) {i : MicroInput} (hi : ∀ c, i ≠ .rxd c)
    {up down : Bytes} (hbytes : s.down = i.bytes ++ down) :
    Downward waiting { s with micro := (s.micro.step i).1, up, down } := by
  obtain ⟨hrx, hfilters⟩ := BrokerSerial.step_kept hi s.micro
  rw [MicroInput.bytes_eq_nil hi, List.nil_append] at hbytes
  refine ⟨h.ready, h.toCbor, hfilters ▸ h.filter, ?_, h.proper⟩
  rw [hrx, ← hbytes]
  exact h.link

/-- A chunk brings the samples among the messages that it completes. -/
theorem Downward.reads (hT : T.Documented) (h : Downward waiting s) {c : Chunk} {up down : Bytes}
    (hbytes : s.down = c.bytes.map Prod.fst ++ down) (hkeeps : s.micro.bytesToFrame.Keeps c) :
    ∃ rest, Downward rest { s with micro := (s.micro.step (.rxd c)).1, up, down } ∧
      samplesOf waiting = s.micro.arrivals (.rxd c) ++ samplesOf rest := by
  obtain ⟨later, hframes, hlater⟩ := (hbytes ▸ h.link).receive hkeeps fun _ bs => bs
  obtain ⟨now, rest, rfl, hnow, rfl⟩ := List.map_eq_append_iff.mp hframes
  obtain ⟨hproperNow, hproperRest⟩ := List.forall_mem_append.mp h.proper
  obtain ⟨hrx, hfilters⟩ := BrokerSerial.onRxd_kept s.micro c
  have harrived : s.micro.arrivals (.rxd c) = samplesOf now := by
    rw [← h.filter.passed_samples hT hproperNow, hnow]
    rfl
  refine ⟨rest, ⟨h.ready, h.toCbor, ?_, ?_, hproperRest⟩, ?_⟩
  · rw [BrokerSerial.step, hfilters]
    exact h.filter.feed _
  · rw [BrokerSerial.step, hrx]
    exact hlater
  · rw [harrived, samplesOf_append]

/-- Whatever has come up the line, the proxy only sends replies. -/
theorem Downward.answers (hT : T.Documented) (h : Downward waiting s) {c : Chunk} {up : Bytes}
    {broker : BrokerZenoh Unit} {sent : List Bytes}
    (hsent : toSerial (s.proxy.onChunk c).2 = sent.map some) :
    Downward (waiting ++ sent.map fun _ => .reply)
      { s with
        proxy := (s.proxy.onChunk c).1
        broker
        up
        down := s.down ++ sent.flatMap pppFrame } := by
  obtain ⟨hready, hasserted, hmade⟩ := Proxy.onFrames_answers hT h.ready h.toCbor
    (emitted (FrameExtractor.handleRxd s.proxy.bytesToFrame c).2)
  have hreply (frame : Bytes) (hframe : frame ∈ sent) : frame = connectReplyFrame := by
    have hmem : some frame ∈ toSerial (s.proxy.onChunk c).2 :=
      hsent ▸ List.mem_map_of_mem hframe
    obtain ⟨frame', hsome, rfl⟩ := hmade _ (mem_toSerial.mp hmem)
    exact Option.some.inj hsome
  have hreplies : sent = (sent.map fun _ => DownMessage.reply).map DownMessage.frame := by
    rw [List.map_map]
    exact (List.map_id'' (fun _ => rfl) sent).symm.trans (List.map_congr_left hreply)
  refine ⟨hready, hasserted, h.filter, ?_, ?_⟩
  · rw [List.map_append, ← hreplies]
    refine h.link.send fun frame hframe => ?_
    rw [hreply frame hframe]
    exact List.cons_ne_nil _ _
  · refine List.forall_mem_append.mpr ⟨h.proper, fun m hm => ?_⟩
    obtain ⟨_, -, rfl⟩ := List.mem_map.mp hm
    trivial

/-- A sample whose frame can be made is sent. -/
theorem Downward.delivers (hT : T.Documented) (h : Downward waiting s) {id : Int}
    (hid : IsInt32 id) {data frame : Bytes}
    (hassert : (s.proxy.proxy.onSample id data).1.toCbor.assertFailed = false)
    (hsent : toSerial (s.proxy.proxy.onSample id data).2 = [some frame]) :
    Downward (waiting ++ [.sample id data])
      { s with
        proxy := { s.proxy with proxy := (s.proxy.proxy.onSample id data).1 }
        down := s.down ++ pppFrame frame } := by
  obtain ⟨hready, hanswers⟩ := Proxy.onSample_answers hT h.ready h.toCbor id data
  have hfit : (encodeArray (MsgPublish.elements ⟨id, data⟩)).length ≤ 1024 := by
    by_contra hlong
    rw [if_neg hlong, hassert] at hanswers
    cases hanswers
  rw [if_pos hfit] at hanswers
  obtain ⟨_, hsome, rfl⟩ := hanswers.made (some frame)
    (mem_toSerial.mp (hsent ▸ List.mem_singleton_self _))
  obtain rfl := Option.some.inj hsome
  refine ⟨hready, hassert, h.filter, ?_, ?_⟩
  · have hsend := h.link.send (DownMessage.frame_ne_nil [.sample id data])
    rw [List.map_append]
    simpa [DownMessage.frame, sampleFrame] using hsend
  · exact List.forall_mem_append.mpr ⟨h.proper, List.forall_mem_singleton.mpr ⟨hid, hfit⟩⟩

/-- **One step** of either program, or of zenoh. -/
theorem Downward.step (hT : T.Documented) (h : Downward waiting s)
    (hstep : PromptStep z s os s') :
    ∃ waiting', Downward waiting' s' ∧
      samplesOf waiting ++ sampledFrames os = arrivedFrames os ++ samplesOf waiting' := by
  cases hstep with
  | micro i down sent hbytes hkeeps hsent =>
    rw [sampledFrames_microLine, arrivedFrames_microLine, List.append_nil]
    by_cases hi : ∀ c, i ≠ .rxd c
    · refine ⟨waiting, h.other hi hbytes, ?_⟩
      rw [BrokerSerial.arrivals_eq_nil hi, List.nil_append]
    · obtain ⟨c, hc⟩ := not_forall.mp hi
      obtain rfl := not_not.mp hc
      exact h.reads hT hbytes (hkeeps c rfl)
  | proxy c up sent hbytes hkeeps hsent =>
    refine ⟨_, h.answers hT hsent, ?_⟩
    simp [samplesOf, sampledFrames, arrivedFrames]
  | sample id hid data frame hassert hsent =>
    refine ⟨_, h.delivers hT hid hassert hsent, ?_⟩
    simp [samplesOf, sampledFrames, arrivedFrames]

/-- **A run**: what has waited or was delivered has arrived or waits. -/
theorem Downward.run (hT : T.Documented) (h : Downward waiting s)
    (htrace : Trace (PromptStep z) s os s') :
    ∃ waiting', Downward waiting' s' ∧
      samplesOf waiting ++ sampledFrames os = arrivedFrames os ++ samplesOf waiting' := by
  induction htrace with
  | refl => exact ⟨waiting, h, by simp [sampledFrames, arrivedFrames]⟩
  | tail _ hstep ih =>
    obtain ⟨waiting₁, h₁, hcount₁⟩ := ih
    obtain ⟨waiting₂, h₂, hcount₂⟩ := h₁.step hT hstep
    refine ⟨waiting₂, h₂, ?_⟩
    rw [sampledFrames_append, arrivedFrames_append, ← List.append_assoc, hcount₁,
      List.append_assoc, hcount₂, List.append_assoc]

/-- With no byte under way to the micro-controller, no sample is. -/
theorem Downward.samplesOf_eq_nil (h : Downward waiting s) (hdone : s.down = []) :
    samplesOf waiting = [] := by
  have hlink := h.link
  rw [hdone] at hlink
  rw [List.map_eq_nil_iff.mp hlink.eq_nil.2]
  rfl

/-- **Every sample arrives, once and in order.** Nothing is under way to the micro-controller
at first. Whatever the two programs do, and whatever bytes come up the line, the frames that
`incomingPublish` has been given are a first part of those of the samples, and all of them
when nothing is under way. -/
theorem samples_arrive (hT : T.Documented) (s₀ s : System T) (hready : s₀.proxy.proxy.Ready)
    (hassert : s₀.proxy.proxy.toCbor.assertFailed = false)
    (hfilter : (s₀.micro.filters .publish).IsFor MsgType.publish.code)
    (hkept : s₀.micro.bytesToFrame.inputFrame = []) (hdown : s₀.down = [])
    (os : List LineEvent) (htrace : Trace (PromptStep z) s₀ os s) :
    arrivedFrames os <+: sampledFrames os ∧
      (s.down = [] → arrivedFrames os = sampledFrames os) := by
  have hstart : Downward [] s₀ :=
    ⟨hready, hassert, hfilter, by rw [hkept, hdown]; exact inFlight_nil, by simp⟩
  obtain ⟨waiting, hwaiting, hcount⟩ := hstart.run hT htrace
  refine ⟨⟨_, hcount.symm⟩, fun hdone => ?_⟩
  rw [hwaiting.samplesOf_eq_nil hdone, List.append_nil] at hcount
  exact hcount.symm

end

/-- A sample that has come all the way; the latency goes back. -/
theorem samples_arrive_first : ∃ (s₀ s : System lenient) (os : List LineEvent),
    arrivedFrames os = [sampleFrame 7 [1, 2]] ∧ Trace (PromptStep Zenoh.succeeding) s₀ os s ∧
      (arrivedFrames os <+: sampledFrames os ∧
        (s.down = [] → arrivedFrames os = sampledFrames os)) := by
  let micro : BrokerSerial lenient :=
    { BrokerSerial.new lenient with filters i := ⟨i.msgType.code, ⟨0⟩, .new _ 1024⟩ }
  let s₀ : System lenient := ⟨micro, ⟨⟨[], [], 0⟩, .start lenient⟩, .new, [], []⟩
  let frame := sampleFrame 7 [1, 2]
  have hsample := PromptStep.sample (z := Zenoh.succeeding) (s := s₀) 7 (by decide) [1, 2] frame
    (by decide +kernel) (by decide +kernel)
  have hmicro := PromptStep.micro (z := Zenoh.succeeding)
    (s := { s₀ with
      proxy := { s₀.proxy with proxy := (s₀.proxy.proxy.onSample 7 [1, 2]).1 }
      down := s₀.down ++ pppFrame frame })
    (.rxd (chunkAt 0 (pppFrame frame))) [] [encodeArray (MsgPublish.elements ⟨0, [159, 0, 255]⟩)]
    (by decide +kernel)
    (fun c hc => by cases hc; decide +kernel) (by decide +kernel)
  have htrace := (Trace.single hsample).trans (Trace.single hmicro)
  exact ⟨s₀, _, _, by decide +kernel, htrace, samples_arrive (TinyCbor.reference_documented _)
    s₀ _ (Proxy.start_ready lenient) rfl ⟨rfl, rfl⟩ rfl rfl _ htrace⟩

end ZenohProxy
