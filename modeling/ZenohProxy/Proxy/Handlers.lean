import ZenohProxy.Codec.MsgFilter
import ZenohProxy.Ppp.Link
import ZenohProxy.Proxy.BrokerZenoh

/-!
# The handlers of the proxy

`main` of `proxy.cpp` attaches a filter and a handler for five of the message types to the
flow of received frames, in a fixed order. A handler decodes the frame into locals with the
one `fromCbor`, calls the broker if that succeeds, and for a connect answers on the serial
line. What a local of type `int` holds before it is decoded into is not known; `locals`
supplies it.

`publish_end_to_end` goes from the serializer of a sender through framing, any chunks,
filters and decoding to the call of the broker.
-/

namespace ZenohProxy

open Cbor (Scalar encodeArray)

/-- The handlers, each named after the type in its filter. -/
inductive Handler where
  | connect
  | subscriber
  | publisher
  | publish
  | disconnect
  deriving DecidableEq, Repr

def Handler.msgType : Handler → MsgType
  | .connect => .connect
  | .subscriber => .subscriber
  | .publisher => .publisher
  | .publish => .publish
  | .disconnect => .disconnect

/-- The order in which the filters are attached. -/
def Handler.all : List Handler := [.connect, .subscriber, .publisher, .publish, .disconnect]

/-- The CBOR side of `main`. -/
structure Proxy (T : TinyCbor) where
  filters : Handler → MsgFilter T
  fromCbor : CborDeserializer T
  toCbor : CborSerializer T
  /-- What the uninitialised locals of the handlers will hold, one call after the other. -/
  locals : Nat → Int

/-- What the handlers do: one is called, and calls the broker or not; a message goes to
`toSerialMsg`. -/
inductive ProxyEvent where
  | called (handler : Handler) (op : Option (BrokerOp Unit))
  | toSerial (msg : Option Bytes)
  deriving DecidableEq

/-- The decoding of a handler and the call of the broker it leads to. All subscriptions have
the same callback. -/
def Handler.decode {T : TinyCbor} (h : Handler) (local_ : Int) (d : CborDeserializer T) :
    BrokerOp Unit × CborDeserializer T :=
  match h with
  | .connect =>
    let (m, d) := MsgConnect.reflect ⟨[]⟩ d
    (.connect m.clientId, d)
  | .subscriber =>
    let (m, d) := MsgSubscriber.reflect ⟨local_, []⟩ d
    (.subscriber m.id m.topic (), d)
  | .publisher =>
    let (m, d) := MsgPublisher.reflect ⟨local_, []⟩ d
    (.publisher m.id m.topic, d)
  | .publish =>
    let (m, d) := MsgPublish.reflect ⟨local_, []⟩ d
    (.publish m.id m.value, d)
  | .disconnect =>
    let (_, d) := MsgDisconnect.reflect ⟨⟩ d
    (.disconnect, d)

def msgConnectReply : MsgConnect := ⟨str "connected"⟩

namespace Proxy

variable {T : TinyCbor}

/-- `toSerialMsg.on(msgConnectReply.reflect(toCbor).toBytes())`. -/
def connectReply (p : Proxy T) : Proxy T × List ProxyEvent :=
  let (_, toCbor) := msgConnectReply.reflect p.toCbor
  ({ p with toCbor }, [.toSerial toCbor.toBytes])

/-- A filter and its handler. -/
def handle (frame : Bytes) (p : Proxy T) (h : Handler) : Proxy T × List ProxyEvent :=
  let (filter, out) := (p.filters h).on frame
  let p := { p with filters := Function.update p.filters h filter }
  match out with
  | none => (p, [])
  | some frame =>
    let (op, fromCbor) := h.decode (p.locals 0) (p.fromCbor.fromBytes frame)
    let p := { p with fromCbor, locals := fun n => p.locals (n + 1) }
    -- the type has passed the filter, but the rest of the message need not decode
    if fromCbor.success then
      let (p, replies) := if h = .connect then p.connectReply else (p, [])
      (p, .called h (some op) :: replies)
    else (p, [.called h none])

/-- `fromSerialMsg`: the frame goes to one filter after the other. -/
def onFrame (p : Proxy T) (frame : Bytes) : Proxy T × List ProxyEvent :=
  Mealy.run (handle frame) p Handler.all

def onFrames (p : Proxy T) (frames : List Bytes) : Proxy T × List ProxyEvent :=
  Mealy.run onFrame p frames

/-- The callback of a subscription, called with its identifier and a sample: the message
goes to `toSerialMsg`. -/
def onSample (p : Proxy T) (id : Int) (data : Bytes) : Proxy T × List ProxyEvent :=
  let (_, toCbor) := MsgPublish.reflect ⟨id, data⟩ p.toCbor
  ({ p with toCbor }, [.toSerial toCbor.toBytes])

end Proxy

/-- The serial side of `main`: `serial.incoming >> bytesToFrame >> fromSerialMsg`. -/
structure ProxyMain (T : TinyCbor) where
  bytesToFrame : FrameRx
  proxy : Proxy T

/-- A chunk from the serial line. -/
def ProxyMain.onChunk {T : TinyCbor} (s : ProxyMain T) (c : Chunk) :
    ProxyMain T × List ProxyEvent :=
  let (bytesToFrame, out) := FrameExtractor.handleRxd s.bytesToFrame c
  let (proxy, events) := s.proxy.onFrames (emitted out)
  (⟨bytesToFrame, proxy⟩, events)

/-- The calls of the broker among the events. -/
def brokerOps (events : List ProxyEvent) : List (BrokerOp Unit) :=
  events.filterMap fun e =>
    match e with
    | .called _ op => op
    | .toSerial _ => none

theorem brokerOps_append (es es' : List ProxyEvent) :
    brokerOps (es ++ es') = brokerOps es ++ brokerOps es' := List.filterMap_append

/-! ## One frame -/

namespace Proxy

variable {T : TinyCbor}

/-- The filters are those of `main` and the buffers have their sizes. -/
structure Ready (p : Proxy T) : Prop where
  filters : ∀ h, (p.filters h).IsFor h.msgType.code
  fromCbor : p.fromCbor.capacity = 1024
  toCbor : p.toCbor.capacity = 1024

/-- A handler takes a payload for a call of the broker, and it is the only one that does. -/
structure Means (T : TinyCbor) (payload : Bytes) (h₀ : Handler) (op : BrokerOp Unit) : Prop where
  passes : ∀ (h : Handler) (f : MsgFilter T), f.IsFor h.msgType.code →
    (f.passes payload = true ↔ h = h₀)
  decodes : ∀ (local_ : Int) (d : CborDeserializer T), d.capacity = 1024 →
    (h₀.decode local_ (d.fromBytes payload)).1 = op ∧
      (h₀.decode local_ (d.fromBytes payload)).2.success = true

/-- The events for a payload that means a call of the broker. -/
def eventsOf (h₀ : Handler) (op : BrokerOp Unit) : List ProxyEvent :=
  .called h₀ (some op) ::
    if h₀ = .connect then [.toSerial (some (encodeArray msgConnectReply.elements))] else []

theorem brokerOps_eventsOf (h : Handler) (op : BrokerOp Unit) :
    brokerOps (eventsOf h op) = [op] := by
  unfold eventsOf
  split <;> rfl

theorem capacity_decode (h : Handler) (local_ : Int) (d : CborDeserializer T) :
    (h.decode local_ d).2.capacity = d.capacity := by
  cases h <;>
    simp [Handler.decode, MsgConnect.reflect, MsgSubscriber.reflect, MsgPublisher.reflect,
      MsgPublish.reflect, MsgDisconnect.reflect, reflectRegistration, Reflector.begin_,
      Reflector.end_, Reflector.memberConst, Reflector.memberInt, Reflector.memberString,
      Reflector.memberBytes, CborDeserializer.end_]

/-- What a filter and its handler can do: nothing, a decode that fails, or a call of the
broker, which for a connect is followed by the reply. -/
theorem handle_cases (frame : Bytes) (p : Proxy T) (h : Handler) :
    (handle frame p h).2 = [] ∨ (handle frame p h).2 = [.called h none] ∨
      ∃ local_ reply, ∃ d : CborDeserializer T,
        (handle frame p h).2 = .called h (some (h.decode local_ d).1) ::
        if h = .connect then [.toSerial reply] else [] := by
  rw [handle]
  cases hout : ((p.filters h).on frame).2 with
  | none => exact .inl (by simp only [hout])
  | some frame' =>
    simp only [hout]
    by_cases hsuccess : (h.decode (p.locals 0) (p.fromCbor.fromBytes frame')).2.success
    · rw [if_pos hsuccess]
      refine .inr (.inr ⟨p.locals 0, (msgConnectReply.reflect p.toCbor).2.toBytes,
        p.fromCbor.fromBytes frame', ?_⟩)
      by_cases hconnect : h = .connect
      · simp only [if_pos hconnect]
        rfl
      · simp only [if_neg hconnect]
    · rw [if_neg hsuccess]
      exact .inr (.inl rfl)

theorem isFor_on {f : MsgFilter T} {k : Int} (hf : f.IsFor k) (payload : Bytes) :
    (f.on payload).1.IsFor k := hf.feed [payload]

section

variable {p : Proxy T}

theorem Ready.update (hp : p.Ready) {h : Handler} {f : MsgFilter T}
    (hf : f.IsFor h.msgType.code) :
    ({ p with filters := Function.update p.filters h f } : Proxy T).Ready where
  filters h' := by
    by_cases hsame : h' = h
    · subst hsame
      simpa using hf
    · simpa [hsame] using hp.filters h'
  fromCbor := hp.fromCbor
  toCbor := hp.toCbor

theorem connectReply_ready (hT : T.Documented) (hp : p.Ready) : p.connectReply.1.Ready :=
  ⟨hp.filters, hp.fromCbor,
    (MsgConnect.reflect_finished hT p.toCbor msgConnectReply).capacity.trans hp.toCbor⟩

theorem connectReply_events (hT : T.Documented) (hp : p.Ready) :
    p.connectReply.2 = [.toSerial (some (encodeArray msgConnectReply.elements))] := by
  have hbytes := (MsgConnect.reflect_finished hT p.toCbor msgConnectReply).toBytes
    (by rw [hp.toCbor]; decide)
  simp [connectReply, hbytes]

theorem handle_ready (hT : T.Documented) (hp : p.Ready) (frame : Bytes) (h : Handler) :
    (handle frame p h).1.Ready := by
  have hready := hp.update (isFor_on (hp.filters h) frame)
  rw [handle]
  cases hout : ((p.filters h).on frame).2 with
  | none => simpa only [hout] using hready
  | some frame' =>
    have hcapacity := (capacity_decode h (p.locals 0) (p.fromCbor.fromBytes frame')).trans
      hp.fromCbor
    simp only [hout]
    -- whether the decode succeeds or not, only the decoder and the serializer change
    split
    · split
      · exact connectReply_ready hT ⟨hready.filters, hcapacity, hp.toCbor⟩
      · exact ⟨hready.filters, hcapacity, hp.toCbor⟩
    · exact ⟨hready.filters, hcapacity, hp.toCbor⟩

/-- **Any frame leaves the proxy ready for the next.** -/
theorem onFrame_ready (hT : T.Documented) (hp : p.Ready) (frame : Bytes) :
    (p.onFrame frame).1.Ready := by
  unfold onFrame
  exact Mealy.run_keeps (P := Ready) (fun _ h hp => handle_ready hT hp frame h) hp _

theorem onFrames_ready (hT : T.Documented) (hp : p.Ready) (frames : List Bytes) :
    (p.onFrames frames).1.Ready := by
  unfold onFrames
  exact Mealy.run_keeps (P := Ready) (fun _ frame hp => onFrame_ready hT hp frame) hp _

/-- A filter that a frame does not pass. -/
theorem handle_other {frame : Bytes} {h : Handler}
    (hpasses : (p.filters h).passes frame = false) : (handle frame p h).2 = [] := by
  have hout := (p.filters h).on_eq frame
  rw [hpasses] at hout
  rw [handle]
  simp only [hout, Bool.false_eq_true, if_false]

/-- The filter that a frame passes, with its handler. -/
theorem handle_own (hT : T.Documented) (hp : p.Ready) {frame : Bytes} {h : Handler}
    {op : BrokerOp Unit} (hmeans : Means T frame h op) :
    (handle frame p h).2 = eventsOf h op := by
  have hpasses := (hmeans.passes h _ (hp.filters h)).mpr rfl
  have hout := (p.filters h).on_eq frame
  rw [hpasses, if_pos rfl] at hout
  obtain ⟨hop, hsuccess⟩ := hmeans.decodes (p.locals 0) p.fromCbor hp.fromCbor
  have hready := hp.update (isFor_on (hp.filters h) frame)
  have hcapacity := (capacity_decode h (p.locals 0) (p.fromCbor.fromBytes frame)).trans
    hp.fromCbor
  rw [handle]
  simp only [hout, hop, hsuccess, if_true, eventsOf]
  split
  · exact congrArg _ (connectReply_events hT ⟨hready.filters, hcapacity, hp.toCbor⟩)
  · rfl

theorem run_handle (hT : T.Documented) (hp : p.Ready) {frame : Bytes} {h₀ : Handler}
    {op : BrokerOp Unit} (hmeans : Means T frame h₀ op) {hs : List Handler} (hnodup : hs.Nodup) :
    (Mealy.run (handle frame) p hs).2 = if h₀ ∈ hs then eventsOf h₀ op else [] := by
  induction hs generalizing p with
  | nil => rfl
  | cons h hs ih =>
    rw [List.nodup_cons] at hnodup
    rw [Mealy.run_cons, ih (handle_ready hT hp frame h) hnodup.2]
    by_cases hsame : h = h₀
    · subst hsame
      -- the handler of the message comes once
      rw [handle_own hT hp hmeans, if_neg hnodup.1, if_pos List.mem_cons_self, List.append_nil]
    · have hpasses : (p.filters h).passes frame = false := by
        rw [Bool.eq_false_iff, ne_eq, hmeans.passes h _ (hp.filters h)]
        exact hsame
      rw [handle_other hpasses, List.nil_append]
      simp [Ne.symm hsame]

/-- **A message has its own effect and no other**, whatever came before. -/
theorem onFrame_means (hT : T.Documented) (hp : p.Ready) {frame : Bytes} {h : Handler}
    {op : BrokerOp Unit} (hmeans : Means T frame h op) :
    (p.onFrame frame).2 = eventsOf h op := by
  rw [onFrame, run_handle hT hp hmeans (by decide), if_pos (by cases h <;> decide)]

theorem onFrames_means (hT : T.Documented) (hp : p.Ready) {α : Type} {frame : α → Bytes}
    {handler : α → Handler} {op : α → BrokerOp Unit} {ms : List α}
    (hms : ∀ m ∈ ms, Means T (frame m) (handler m) (op m)) :
    (p.onFrames (ms.map frame)).2 = ms.flatMap fun m => eventsOf (handler m) (op m) := by
  induction ms generalizing p with
  | nil => rfl
  | cons m ms ih =>
    have hrest := ih (onFrame_ready hT hp (frame m)) fun m' h => hms m' (List.mem_cons_of_mem _ h)
    rw [List.map_cons, onFrames, Mealy.run_cons, List.flatMap_cons,
      onFrame_means hT hp (hms m List.mem_cons_self)]
    exact congrArg (eventsOf (handler m) (op m) ++ ·) hrest

/-- So they make one call of the broker each. -/
theorem brokerOps_onFrames_means (hT : T.Documented) (hp : p.Ready) {α : Type}
    {frame : α → Bytes} {handler : α → Handler} {op : α → BrokerOp Unit} {ms : List α}
    (hms : ∀ m ∈ ms, Means T (frame m) (handler m) (op m)) :
    brokerOps (p.onFrames (ms.map frame)).2 = ms.map op := by
  rw [onFrames_means hT hp hms]
  clear hms
  induction ms with
  | nil => rfl
  | cons m ms ih =>
    rw [List.flatMap_cons, brokerOps_append, brokerOps_eventsOf, ih]
    rfl

theorem decode_ne_unSubscribe (h : Handler) (local_ : Int) (d : CborDeserializer T) (id : Int) :
    (h.decode local_ d).1 ≠ .unSubscribe id := by
  cases h <;> simp [Handler.decode]

theorem unSubscribe_notMem_onFrames (p : Proxy T) (frames : List Bytes) (id : Int) :
    .unSubscribe id ∉ brokerOps (p.onFrames frames).2 := by
  have happend : ∀ es es' : List ProxyEvent, .unSubscribe id ∉ brokerOps es →
      .unSubscribe id ∉ brokerOps es' → .unSubscribe id ∉ brokerOps (es ++ es') := by
    intro es es' hes hes'
    rw [brokerOps_append, List.mem_append, not_or]
    exact ⟨hes, hes'⟩
  have hhandle (frame : Bytes) (p : Proxy T) (h : Handler) :
      .unSubscribe id ∉ brokerOps (handle frame p h).2 := by
    rcases handle_cases frame p h with heq | heq | ⟨local_, reply, d, heq⟩
    · rw [heq]
      exact List.not_mem_nil
    · rw [heq]
      exact List.not_mem_nil
    · have hops : brokerOps (handle frame p h).2 = [(h.decode local_ d).1] := by
        rw [heq]
        split <;> rfl
      rw [hops, List.mem_singleton]
      exact (decode_ne_unSubscribe h local_ d id).symm
  -- first over the handlers of a frame, then over the frames
  have hframe (p : Proxy T) (frame : Bytes) :
      .unSubscribe id ∉ brokerOps (p.onFrame frame).2 :=
    (Mealy.run_puts (P := fun _ => True) List.not_mem_nil happend
      (fun p h _ => ⟨trivial, hhandle frame p h⟩) trivial Handler.all).2
  exact (Mealy.run_puts (P := fun _ => True) List.not_mem_nil happend
    (fun p frame _ => ⟨trivial, hframe p frame⟩) trivial frames).2

end

/-! ## Which call a message means -/

section

variable (hT : T.Documented)
include hT

theorem means_encodeArray (h₀ : Handler) {xs : List Scalar} {op : BrokerOp Unit}
    (hfits : ∀ x ∈ Scalar.int h₀.msgType.code :: xs, x.Fits)
    (hlen : (encodeArray (.int h₀.msgType.code :: xs)).length ≤ 1024)
    (hdecodes : ∀ (local_ : Int) (d : CborDeserializer T), d.capacity = 1024 →
      (h₀.decode local_ (d.fromBytes (encodeArray (.int h₀.msgType.code :: xs)))).1 = op ∧
        (h₀.decode local_ (d.fromBytes (encodeArray (.int h₀.msgType.code :: xs)))).2.success
          = true) :
    Means T (encodeArray (.int h₀.msgType.code :: xs)) h₀ op where
  passes h f hf := by
    rw [hf.passes_encodeArray hT (MsgType.isInt32_code _)
      (fun x hx => hfits x (List.mem_cons_of_mem _ hx)) hlen, MsgType.code_inj]
    cases h <;> cases h₀ <;> decide
  decodes := hdecodes

theorem means_publish {id : Int} {value : Bytes} (hid : IsInt32 id)
    (hlen : (encodeArray (MsgPublish.elements ⟨id, value⟩)).length ≤ 1024) :
    Means T (encodeArray (MsgPublish.elements ⟨id, value⟩)) .publish (.publish id value) := by
  have hfits : ∀ x ∈ MsgPublish.elements ⟨id, value⟩, x.Fits :=
    fits_elements (MsgType.isInt32_code .publish) hid hlen
  refine means_encodeArray hT .publish hfits hlen fun local_ d hd => ?_
  obtain ⟨hm, hsuccess⟩ := MsgPublish.reflect_encode hT d (m := ⟨id, value⟩) hid hfits
    (hd ▸ hlen) ⟨local_, []⟩
  exact ⟨congrArg (fun m : MsgPublish => BrokerOp.publish m.id m.value) hm, hsuccess⟩

theorem means_publisher {id : Int} {topic : Str} (hid : IsInt32 id)
    (hlen : (encodeArray (MsgPublisher.elements ⟨id, topic⟩)).length ≤ 1024) :
    Means T (encodeArray (MsgPublisher.elements ⟨id, topic⟩)) .publisher
      (.publisher id (cStr topic)) := by
  have hfits : ∀ x ∈ MsgPublisher.elements ⟨id, topic⟩, x.Fits :=
    fits_elements (MsgType.isInt32_code .publisher) hid hlen
  refine means_encodeArray hT .publisher hfits hlen fun local_ d hd => ?_
  obtain ⟨hm, hsuccess⟩ := MsgPublisher.reflect_encode hT d (m := ⟨id, topic⟩) hid hfits
    (hd ▸ hlen) ⟨local_, []⟩
  exact ⟨congrArg (fun m : MsgPublisher => BrokerOp.publisher m.id m.topic) hm, hsuccess⟩

theorem means_subscriber {id : Int} {topic : Str} (hid : IsInt32 id)
    (hlen : (encodeArray (MsgSubscriber.elements ⟨id, topic⟩)).length ≤ 1024) :
    Means T (encodeArray (MsgSubscriber.elements ⟨id, topic⟩)) .subscriber
      (.subscriber id (cStr topic) ()) := by
  have hfits : ∀ x ∈ MsgSubscriber.elements ⟨id, topic⟩, x.Fits :=
    fits_elements (MsgType.isInt32_code .subscriber) hid hlen
  refine means_encodeArray hT .subscriber hfits hlen fun local_ d hd => ?_
  obtain ⟨hm, hsuccess⟩ := MsgSubscriber.reflect_encode hT d (m := ⟨id, topic⟩) hid hfits
    (hd ▸ hlen) ⟨local_, []⟩
  exact ⟨congrArg (fun m : MsgSubscriber => BrokerOp.subscriber m.id m.topic ()) hm, hsuccess⟩

theorem means_connect {clientId : Str}
    (hlen : (encodeArray (MsgConnect.elements ⟨clientId⟩)).length ≤ 1024) :
    Means T (encodeArray (MsgConnect.elements ⟨clientId⟩)) .connect
      (.connect (cStr clientId)) := by
  have hfits : ∀ x ∈ MsgConnect.elements ⟨clientId⟩, x.Fits :=
    fits_single (MsgType.isInt32_code .connect) hlen
  refine means_encodeArray hT .connect hfits hlen fun local_ d hd => ?_
  obtain ⟨hm, hsuccess⟩ := MsgConnect.reflect_encode hT d (m := ⟨clientId⟩) hfits (hd ▸ hlen) ⟨[]⟩
  exact ⟨congrArg (fun m : MsgConnect => BrokerOp.connect m.clientId) hm, hsuccess⟩

theorem means_disconnect :
    Means T (encodeArray (MsgDisconnect.elements ⟨⟩)) .disconnect .disconnect := by
  have hfits : ∀ x ∈ MsgDisconnect.elements ⟨⟩, x.Fits := by
    rw [MsgDisconnect.elements, List.forall_mem_singleton, Scalar.Fits]
    decide
  refine means_encodeArray hT .disconnect hfits (by decide) fun local_ d hd => ?_
  exact ⟨rfl, MsgDisconnect.reflect_encode hT d hfits (by rw [hd]; decide) ⟨⟩⟩

end

end Proxy

/-! ## From a sender to the broker -/

open Proxy

section

variable {T : TinyCbor}

theorem Proxy.onFrames_append (p : Proxy T) (frames frames' : List Bytes) :
    (p.onFrames (frames ++ frames')).2
      = (p.onFrames frames).2 ++ ((p.onFrames frames).1.onFrames frames').2 := by
  rw [onFrames, Mealy.run_append]
  rfl

/-- The events of a run are those of the frames that the extractor emits on it. -/
theorem ProxyMain.run_events (s : ProxyMain T) (cs : List Chunk) :
    (Mealy.run onChunk s cs).2 = (s.proxy.onFrames
      (emitted (Mealy.run FrameExtractor.handleRxd s.bytesToFrame cs).2)).2 := by
  induction cs generalizing s with
  | nil => rfl
  | cons c cs ih =>
    rw [Mealy.run_cons, ih, Mealy.run_cons, emitted_append, Proxy.onFrames_append]
    rfl

/-- **A published value reaches the broker as it is.** A message that fits the serializer it
is written with and the decoders of the proxy is framed and arrives in any chunks, after any
other frames: it makes one call of `publish`, with its identifier and value, and calls no
other handler. -/
theorem publish_end_to_end (hT : T.Documented) (sender : CborSerializer T) (s : ProxyMain T)
    (hs : s.proxy.Ready) (hrx : s.bytesToFrame.inputFrame = []) (id : Int) (hid : IsInt32 id)
    (value : Bytes)
    (hsender : (encodeArray (MsgPublish.elements ⟨id, value⟩)).length ≤ sender.capacity)
    (hproxy : (encodeArray (MsgPublish.elements ⟨id, value⟩)).length ≤ 1024) (payload : Bytes)
    (hpayload : (MsgPublish.reflect ⟨id, value⟩ sender).2.toBytes = some payload)
    (before : List Bytes) (hbefore : ∀ frame ∈ before, frame ≠ []) (cs : List Chunk)
    (htime : noTimeout s.bytesToFrame.lastFrameFlag cs)
    (hbytes : (stream cs).map Prod.fst = (before ++ [payload]).flatMap pppFrame) :
    (Mealy.run ProxyMain.onChunk s cs).2
      = (s.proxy.onFrames before).2 ++ [.called .publish (some (.publish id value))] := by
  have hwritten : payload = encodeArray (MsgPublish.elements ⟨id, value⟩) := by
    have hdone := (MsgPublish.reflect_finished hT sender ⟨id, value⟩).toBytes hsender
    rw [hpayload] at hdone
    exact Option.some.inj hdone
  have hne : ∀ frame ∈ before ++ [payload], frame ≠ [] := by
    intro frame hmem
    rcases List.mem_append.mp hmem with hmem | hmem
    · exact hbefore frame hmem
    · rw [List.mem_singleton.mp hmem, hwritten]
      exact List.cons_ne_nil _ _
  -- how the bytes are cut into chunks makes no difference to the frames
  have hemitted := link_delivers (fun inputFrame _ => inputFrame) hne hrx htime hbytes
  have hready := onFrames_ready hT hs before
  rw [ProxyMain.run_events, FrameExtractor.handleRxd, hemitted, onFrames_append, hwritten,
    show ∀ p : Proxy T, p.onFrames [encodeArray (MsgPublish.elements ⟨id, value⟩)]
      = p.onFrame (encodeArray (MsgPublish.elements ⟨id, value⟩)) from
      fun p => Mealy.run_singleton p _,
    onFrame_means hT hready (means_publish hT hid hproxy)]
  rfl

/-- A proxy at its start. -/
def Proxy.start (T : TinyCbor) : Proxy T where
  filters h := ⟨h.msgType.code, ⟨0⟩, .new T 1024⟩
  fromCbor := .new T 1024
  toCbor := .new T 1024
  locals _ := 0

theorem Proxy.start_ready (T : TinyCbor) : (start T).Ready := ⟨fun _ => ⟨rfl, rfl⟩, rfl, rfl⟩

end

/-- The value `7D 7E`, after a frame that is no message, in two chunks. -/
theorem publish_end_to_end_escaped :
    (Mealy.run ProxyMain.onChunk ⟨⟨[], [], 0⟩, start lenient⟩
      [⟨[(0x7E, 1)], 2⟩,
        ⟨(([[0x05], encodeArray (MsgPublish.elements ⟨-3, [0x7D, 0x7E]⟩)].flatMap
          pppFrame).drop 1).map fun b => (b, 3), 4⟩]).2
      = ((start lenient).onFrames [[0x05]]).2
        ++ [.called .publish (some (.publish (-3) [0x7D, 0x7E]))] :=
  publish_end_to_end (TinyCbor.reference_documented _) (start lenient).toCbor
    ⟨⟨[], [], 0⟩, start lenient⟩ (start_ready lenient) rfl (-3) (by decide) [0x7D, 0x7E]
    (by decide) (by decide) (encodeArray (MsgPublish.elements ⟨-3, [0x7D, 0x7E]⟩)) rfl
    [[0x05]] (by decide) _ (by decide) (by decide)

end ZenohProxy
