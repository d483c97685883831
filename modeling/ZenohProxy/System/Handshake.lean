import ZenohProxy.System.Relay

/-!
# The handshake

Once a connect message has come in at the micro-controller, every registration is among the
messages it has sent. So with nothing under way the tables of the proxy hold exactly its
resources (`handshake_agreement`), and there is a run that comes to that
(`handshake_completes`).
-/

namespace ZenohProxy

open Cbor (encodeArray)
open BrokerZenoh

/-! ## The tables -/

/-- Where every answer is right, every right answer is given and no two are, the first is
the one. -/
theorem findSome_eq_some_iff {α β : Type} {f : α → Option β} {l : List α} {R : β → Prop}
    (hsound : ∀ a ∈ l, ∀ b, f a = some b → R b) (hcomplete : ∀ b, R b → ∃ a ∈ l, f a = some b)
    (hunique : ∀ b b', R b → R b' → b = b') (b : β) : l.findSome? f = some b ↔ R b := by
  constructor
  · intro h
    obtain ⟨a, ha, hb⟩ := List.exists_of_findSome?_eq_some h
    exact hsound a ha b hb
  · intro h
    obtain ⟨a, ha, hb⟩ := hcomplete b h
    cases hfound : l.findSome? f with
    | none =>
      rw [List.findSome?_eq_none_iff.mp hfound a ha] at hb
      cases hb
    | some b' =>
      obtain ⟨a', ha', hb'⟩ := List.exists_of_findSome?_eq_some hfound
      rw [hunique b' b (hsound a' ha' b' hb') h]

section

variable {B : Broker} (hB : B.Proper) {ms : List UpMessage} (hof : ∀ m ∈ ms, m.IsOf B)
  (hregisters : Registers B ms) (id : Int)
include hB hof hregisters

/-- What is in force for an identifier is the key of the publisher that has it. -/
theorem inForce_publisher (key : Str) :
    inForce (publisherOf id) (ms.map UpMessage.op) = some key ↔ ⟨id, key⟩ ∈ B.publishers := by
  rw [inForce_eq_findSome (by simp [UpMessage.op_isDisconnect]), List.findSome?_map]
  refine findSome_eq_some_iff (R := fun key => ⟨id, key⟩ ∈ B.publishers) ?_ ?_ ?_ key
  · intro m hm key hkey
    cases m with
    | publisher m =>
      obtain ⟨p, hp, rfl⟩ := hof _ hm
      simp only [Function.comp_apply, UpMessage.op, publisherOf, Option.ite_none_right_eq_some,
        Option.some.injEq] at hkey
      obtain ⟨rfl, rfl⟩ := hkey
      exact hp
    | _ => cases hkey
  · exact fun key hp => ⟨_, hregisters.publishers _ hp, by simp [UpMessage.op, publisherOf]⟩
  -- no two publishers have one identifier
  · intro key key' hp hp'
    have hnodup := (List.nodup_append.mp hB.distinct).1
    exact congrArg Resource.key (List.inj_on_of_nodup_map hnodup hp hp' rfl)

theorem inForce_subscriber (pattern : Str) :
    inForce (subscriberOf id) (ms.map UpMessage.op) = some (pattern, ()) ↔
      ∃ type, ⟨⟨id, pattern⟩, type⟩ ∈ B.subscribers := by
  rw [inForce_eq_findSome (by simp [UpMessage.op_isDisconnect]), List.findSome?_map]
  refine findSome_eq_some_iff (R := fun r => ∃ type, ⟨⟨id, r.1⟩, type⟩ ∈ B.subscribers)
    ?_ ?_ ?_ (pattern, ())
  · intro m hm r hr
    cases m with
    | subscriber m =>
      obtain ⟨s, hs, rfl⟩ := hof _ hm
      simp only [Function.comp_apply, UpMessage.op, subscriberOf, Option.ite_none_right_eq_some,
        Option.some.injEq] at hr
      obtain ⟨rfl, rfl⟩ := hr
      exact ⟨s.type, hs⟩
    | _ => cases hr
  · rintro r ⟨_, hs⟩
    exact ⟨_, hregisters.subscribers _ hs, by simp [UpMessage.op, subscriberOf]⟩
  · rintro r r' ⟨_, hs⟩ ⟨_, hs'⟩
    have hnodup := (List.nodup_append.mp hB.distinct).2.1
    have hsame := List.inj_on_of_nodup_map hnodup hs hs' rfl
    exact Prod.ext (congrArg (fun s : Subscriber => s.key) hsame) rfl

end

/-! ## The handshake can be completed -/

theorem outgoing_registered (ms : List UpMessage) :
    outgoing (.connected :: ms.map fun m => .outgoing (some (encodeArray m.elements)))
      = (ms.map UpMessage.frame).map some := by
  simp [outgoing, UpMessage.frame, Function.comp_def]

theorem toSerial_registrations (B : Broker) : toSerial ((BrokerSerial.registrations B).flatMap
    fun m => Proxy.eventsOf m.handler m.op) = [] := by
  rw [toSerial, List.filterMap_eq_nil_iff]
  intro e he
  obtain ⟨m, hm, he⟩ := List.mem_flatMap.mp he
  simp only [BrokerSerial.registrations, List.mem_append, List.mem_map] at hm
  rcases hm with ⟨s, -, rfl⟩ | ⟨p, -, rfl⟩ <;>
  · obtain rfl := List.mem_singleton.mp he
    rfl

section

variable {T : TinyCbor} (hT : T.Documented)
include hT

/-- Messages that reach the proxy in one piece. -/
theorem ProxyMain.onChunk_messages {p : ProxyMain T} (hp : p.proxy.Ready)
    (hkept : p.bytesToFrame.inputFrame = []) {ms : List UpMessage}
    (hms : ∀ m ∈ ms, Proxy.Means T m.frame m.handler m.op) :
    let c := chunkAt p.bytesToFrame.lastFrameFlag ((ms.map UpMessage.frame).flatMap pppFrame)
    (p.onChunk c).1.proxy.Ready ∧ (p.onChunk c).1.bytesToFrame.inputFrame = [] ∧
      (p.onChunk c).2 = ms.flatMap fun m => Proxy.eventsOf m.handler m.op := by
  obtain ⟨hkept', hemitted⟩ := FrameRx.handleRxd_chunkAt (fun kept _ => kept) hkept
    (frame_ne_nil ms)
  refine ⟨Proxy.onFrames_ready hT hp _, hkept', ?_⟩
  rw [← Proxy.onFrames_means hT hp hms]
  exact congrArg (fun frames => (p.proxy.onFrames frames).2) hemitted

/-- A run in which the proxy takes what is under way to it. -/
theorem Run.proxy_takes {z : Zenoh Unit} {s₀ s : System T} {es : List MicroEvent}
    (hrun : Run z s₀ es s) (hready : s.proxy.proxy.Ready)
    (hkept : s.proxy.bytesToFrame.inputFrame = []) (ms : List UpMessage) (sent : List Bytes)
    (hup : s.up = (ms.map UpMessage.frame).flatMap pppFrame)
    (hms : ∀ m ∈ ms, Proxy.Means T m.frame m.handler m.op)
    (hsent : toSerial (ms.flatMap fun m => Proxy.eventsOf m.handler m.op) = sent.map some) :
    ∃ s', Run z s₀ es s' ∧ s'.micro = s.micro ∧ s'.proxy.proxy.Ready ∧
      s'.proxy.bytesToFrame.inputFrame = [] ∧ s'.up = [] ∧
      s'.down = s.down ++ sent.flatMap pppFrame := by
  obtain ⟨hready', hkept', htaken⟩ := ProxyMain.onChunk_messages hT hready hkept hms
  have hstep := Step.proxy (z := z) _ [] sent (by rw [chunkAt_bytes, List.append_nil, hup])
    (FrameRx.keeps_chunkAt _ _) (by rw [htaken, hsent])
  have hrun' := hrun.tail hstep
  rw [List.append_nil] at hrun'
  exact ⟨_, hrun', rfl, hready', hkept', rfl, rfl⟩

omit hT in
/-- A run in which the micro-controller takes all that is under way to it. -/
theorem Run.micro_takes {z : Zenoh Unit} {s₀ s : System T} {es : List MicroEvent}
    (hrun : Run z s₀ es s) (i : MicroInput) (sent : List Bytes) (hdown : s.down = i.bytes)
    (hsent : outgoing (s.micro.step i).2 = sent.map some) :
    ∃ s', Run z s₀ (es ++ (s.micro.step i).2) s' ∧ s'.micro = (s.micro.step i).1 ∧
      s'.proxy = s.proxy ∧ s'.up = s.up ++ sent.flatMap pppFrame ∧ s'.down = [] :=
  ⟨_, hrun.tail (.micro i [] sent (by rw [hdown, List.append_nil]) hsent), rfl, rfl, rfl, rfl⟩

/-- **There is a run**: announce, answer, register. -/
theorem handshake_completes {z : Zenoh Unit} {B : Broker} (hB : B.Proper)
    (hfits : ∀ m ∈ BrokerSerial.registrations B, m.frame.length ≤ 100) (s₀ : System T)
    (hmicro : s₀.micro.Waiting B) (hproxy : s₀.proxy.proxy.Ready)
    (hkept : s₀.proxy.bytesToFrame.inputFrame = []) (hup : s₀.up = []) (hdown : s₀.down = []) :
    ∃ es s, Run z s₀ es s ∧ .connected ∈ es ∧ s.up = [] := by
  let announce : UpMessage := .connect ⟨brokerSrcPrefix⟩
  let reply : Bytes := encodeArray msgConnectReply.elements
  let registered := BrokerSerial.registrations B
  -- the timer makes the micro-controller announce itself
  obtain ⟨hwaiting, hannounced⟩ := hmicro.onKeepAlive hT 0
  have hrun₀ : Run z s₀ [] s₀ := .refl s₀
  obtain ⟨s₁, hrun₁, hmicro₁, hproxy₁, hup₁, hdown₁⟩ := hrun₀.micro_takes
    (.keepAlive 0) [announce.frame] hdown (by rw [BrokerSerial.step, hannounced]; rfl)
  -- the proxy answers
  have hannounce : ∀ m ∈ [announce], Proxy.Means T m.frame m.handler m.op := fun m hm => by
    obtain rfl := List.mem_singleton.mp hm
    exact UpMessage.IsOf.means hB hT rfl (by decide)
  rw [← hproxy₁] at hproxy hkept
  rw [hup, List.nil_append] at hup₁
  obtain ⟨s₂, hrun₂, hmicro₂, hready₂, hkept₂, hup₂, hdown₂⟩ := hrun₁.proxy_takes hT hproxy hkept
    [announce] [reply] hup₁ hannounce rfl
  -- the micro-controller registers its resources
  have hwaiting₂ : s₂.micro.Waiting B := by
    rw [hmicro₂, hmicro₁]
    exact hwaiting
  have hsent := hwaiting₂.onRxd_connect hT (m := msgConnectReply)
    (fits_single (MsgType.isInt32_code .connect) (show _ ≤ 1024 by decide)) (by decide) hfits
  let received : Chunk :=
    chunkAt s₂.micro.bytesToFrame.lastFrameFlag ([reply].flatMap pppFrame)
  have hreceived : s₂.down = (MicroInput.rxd received).bytes := by
    rw [hdown₂, hdown₁, List.nil_append]
    exact (chunkAt_bytes _ _).symm
  have hstep : (s₂.micro.step (.rxd received)).2 = .connected :: registered.map fun m =>
    .outgoing (some (encodeArray m.elements)) := hsent
  obtain ⟨s₃, hrun₃, -, hproxy₃, hup₃, -⟩ := hrun₂.micro_takes (.rxd received)
    (registered.map UpMessage.frame) hreceived (by rw [hstep, outgoing_registered])
  -- and the proxy takes them
  rw [← hproxy₃] at hready₂ hkept₂
  rw [hup₂, List.nil_append] at hup₃
  have hregister : ∀ m ∈ registered, Proxy.Means T m.frame m.handler m.op := fun m hm =>
    (BrokerSerial.registrations_isOf hm).means hB hT (hfits m hm)
  obtain ⟨s₄, hrun₄, -, -, -, hup₄, -⟩ := hrun₃.proxy_takes hT hready₂ hkept₂
    registered [] hup₃ hregister (toSerial_registrations B)
  refine ⟨_, s₄, hrun₄, ?_, hup₄⟩
  rw [hstep]
  exact List.mem_append_right _ List.mem_cons_self

end

/-! ## Agreement -/

theorem prefixed_no_nul {brokerPrefix name : Str} (hbase : 0 ∉ brokerPrefix)
    (hname : 0 ∉ name) : 0 ∉ prefixed brokerPrefix name := by
  unfold prefixed
  split
  · exact hname
  · rw [List.mem_append, not_or]
    exact ⟨hbase, hname⟩

theorem Broker.Created.proper {calls : List Creation} {b : Broker} (h : b.Created calls)
    (hnames : ∀ call ∈ calls, 0 ∉ call.name) : b.Proper where
  distinct := h.distinct
  ids _ hid := h.isInt32 hid
  publishers p hp := by
    obtain ⟨n, name, hcall, rfl⟩ := h.mem_publishers.mp hp
    exact prefixed_no_nul (by decide) (hnames _ (List.mem_of_getElem? hcall))
  subscribers s hs := by
    obtain ⟨n, name, type, hcall, rfl⟩ := h.mem_subscribers.mp hs
    exact prefixed_no_nul (by decide) (hnames _ (List.mem_of_getElem? hcall))

/-- The tables of the proxy hold what the calls have created and nothing else, and from here
on what a publisher sends is written under its key, once and nowhere else. -/
structure Agreement {T : TinyCbor} (z : Zenoh Unit) (nameOf : Nat → Str) (calls : List Creation)
    (s : System T) : Prop where
  publishers : ∀ id key, (s.broker.publishers.lookup id).map Pub.key = some key ↔
    ∃ (n : Nat) (name : Str), calls[n]? = some (.publisher name) ∧ id = n ∧
      key = prefixed brokerSrcPrefix name
  subscribers : ∀ id pattern, (s.broker.subscribers.lookup id).map Sub.key = some pattern ↔
    ∃ (n : Nat) (name : Str) (type : ValueType), calls[n]? = some (.subscriber name type) ∧
      id = n ∧ pattern = prefixed brokerDstPrefix name
  distinct : s.micro.broker.ids.Nodup
  routed : ∀ es s', Run z s es s' → ∀ p ∈ s.micro.broker.publishers, ∀ bs frame,
    Publisher.send T p bs = some frame → ∃ n, nameOf n = p.key ∧
      (s'.broker.run z (brokerOps (s'.proxy.proxy.onFrame frame).2)).calls
        = s'.broker.calls ++ [.write s'.broker.session (.rid n) bs 0]

/-- The proxy has handled these messages, so its tables agree with them. -/
structure Handled (nameOf : Nat → Str) (B : Broker) (handled : List UpMessage)
    (b : BrokerZenoh Unit) : Prop where
  isOf : ∀ m ∈ handled, m.IsOf B
  agrees : Agrees nameOf (handled.map UpMessage.op) b

section

variable {T : TinyCbor} {z : Zenoh Unit} {nameOf : Nat → Str} {B : Broker} {s s' : System T}
  {es : List MicroEvent} {handled pending pending' said served : List UpMessage}

/-- What it serves from there on comes to what it has handled. -/
theorem Handled.relayed (hz : z.Succeeds nameOf) (h : Handled nameOf B handled s.broker)
    (hjoined : Joined B pending s)
    (hrelayed : Relayed z B s es s' pending said served pending') :
    Handled nameOf B (handled ++ served) s'.broker := by
  refine ⟨List.forall_mem_append.mpr ⟨h.isOf, hrelayed.served_isOf hjoined.isOf⟩, ?_⟩
  rw [List.map_append]
  exact hrelayed.agrees hz h.agrees

/-- Once all registrations are handled, a frame of a publisher is written under its key. -/
theorem Handled.routed (hT : T.Documented) (hz : z.Succeeds nameOf) (hB : B.Proper)
    (h : Handled nameOf B handled s.broker) (hproxy : s.proxy.proxy.Ready)
    (hregisters : Registers B handled) {p : Resource} (hp : p ∈ B.publishers) {bs frame : Bytes}
    (hframe : Publisher.send T p bs = some frame) :
    ∃ n, nameOf n = p.key ∧
      (s.broker.run z (brokerOps (s.proxy.proxy.onFrame frame).2)).calls
        = s.broker.calls ++ [.write s.broker.session (.rid n) bs 0] := by
  obtain ⟨rfl, hfit⟩ := (Publisher.send_eq_some hT p).mp hframe
  have hmeans : Proxy.Means T (encodeArray (MsgPublish.elements ⟨p.id, bs⟩)) .publish
      (.publish p.id bs) :=
    Proxy.means_publish hT (hB.publisher_id hp) (hfit.trans (by decide))
  have hforce := (inForce_publisher hB h.isOf hregisters p.id p.key).mpr hp
  obtain ⟨n, hname, hwrite⟩ := h.agrees.publish hz hforce bs
  refine ⟨n, by rw [hname, cStr_of_no_nul (hB.publishers p hp)], ?_⟩
  rw [Proxy.onFrame_means hT hproxy hmeans, Proxy.brokerOps_eventsOf, run_cons, run_nil,
    BrokerZenoh.step, hwrite]
  rfl

/-- What is in force for a subscriber is the pattern it was created with. -/
theorem Handled.subscribers_iff (hB : B.Proper) {calls : List Creation}
    (hcreated : B.Created calls) {b : BrokerZenoh Unit} (h : Handled nameOf B handled b)
    (hregisters : Registers B handled) (id : Int) (pattern : Str) :
    (b.subscribers.lookup id).map Sub.key = some pattern ↔
      ∃ (n : Nat) (name : Str) (type : ValueType), calls[n]? = some (.subscriber name type) ∧
        id = n ∧ pattern = prefixed brokerDstPrefix name := by
  have hforce := inForce_subscriber hB h.isOf hregisters id pattern
  rw [← h.agrees.subscribers id] at hforce
  refine Iff.trans ?_ (hforce.trans ?_)
  · cases b.subscribers.lookup id <;> simp
  · constructor
    · rintro ⟨type, hmem⟩
      obtain ⟨n, name, type', hcall, hsame⟩ := hcreated.mem_subscribers.mp hmem
      cases hsame
      exact ⟨n, name, type, hcall, rfl, rfl⟩
    · rintro ⟨n, name, type, hcall, rfl, rfl⟩
      exact ⟨type, hcreated.mem_subscribers.mpr ⟨n, name, type, hcall, rfl⟩⟩

/-- Once all registrations are handled the tables agree with what was created. -/
theorem Handled.agreement (hT : T.Documented) (hz : z.Succeeds nameOf) (hB : B.Proper)
    {calls : List Creation} (hcreated : B.Created calls) (h : Handled nameOf B handled s.broker)
    (hjoined : Joined B pending s) (hregisters : Registers B handled) :
    Agreement z nameOf calls s := by
  refine ⟨fun id key => ?_, h.subscribers_iff hB hcreated hregisters, ?_, ?_⟩
  · rw [h.agrees.publishers, inForce_publisher hB h.isOf hregisters, hcreated.mem_publishers]
    simp only [Resource.mk.injEq]
  · rw [hjoined.micro.broker]
    exact hcreated.distinct
  · intro es' s' hrun' p hp bs frame hframe
    -- what has been handled at the end of the handshake stays handled
    obtain ⟨said', served', pending', hrelayed', hjoined'⟩ := hjoined.run hT hB hrun'
    exact (h.relayed hz hjoined hrelayed').routed hT hz hB hjoined'.proxy
      hregisters.append_left (hjoined.micro.broker ▸ hp) hframe

end

/-- **Handshake agreement.** The client has created what it likes, around `init`; the tables
of the proxy are empty and no byte is under way to it. In every run in which a connect
message has come in and at whose end no byte is under way to the proxy, the tables agree
with what was created. -/
theorem handshake_agreement {T : TinyCbor} (hT : T.Documented) {z : Zenoh Unit}
    {nameOf : Nat → Str} (hz : z.Succeeds nameOf) (fresh : BrokerSerial T)
    (hbroker : fresh.broker = .new) (htoCbor : fresh.toCbor.capacity = 100)
    (before after : List Creation) (hnames : ∀ call ∈ before ++ after, 0 ∉ call.name)
    (s₀ : System T) (hsetup : fresh.setup before after = some s₀.micro)
    (hproxy : s₀.proxy.proxy.Ready) (hkept : s₀.proxy.bytesToFrame.inputFrame = [])
    (hup : s₀.up = []) (hpubs : s₀.broker.publishers = ∅) (hsubs : s₀.broker.subscribers = ∅)
    (es : List MicroEvent) (s : System T) (hrun : Run z s₀ es s) (hreply : .connected ∈ es)
    (hdone : s.up = []) :
    Agreement z nameOf (before ++ BrokerSerial.initCalls ++ after) s := by
  obtain ⟨hcreated, hof₀⟩ := BrokerSerial.setup_created hbroker htoCbor hsetup
  generalize s₀.micro.broker = B at hcreated hof₀
  have hB := hcreated.proper (fun call hcall => by
    simp only [List.mem_append] at hcall hnames
    rcases hcall with (hcall | hcall) | hcall
    · exact hnames call (.inl hcall)
    -- the names that `init` gives have no zero in them
    · revert call
      decide
    · exact hnames call (.inr hcall))
  have hjoined₀ : Joined B [] s₀ :=
    ⟨hof₀, hproxy, by rw [hkept, hup]; exact inFlight_nil, by simp, by simp⟩
  have h₀ : Handled nameOf B [] s₀.broker := ⟨by simp, agrees_of_empty nameOf hpubs hsubs⟩
  obtain ⟨said, served, pending, hrelayed, hjoined⟩ := hjoined₀.run hT hB hrun
  -- all registrations are among what has been said, and that has been served
  obtain rfl := hjoined.pending_eq_nil hdone
  have hserved := hrelayed.queue
  rw [List.nil_append, List.append_nil] at hserved
  subst hserved
  exact (h₀.relayed hz hjoined₀ hrelayed).agreement hT hz hB hcreated hjoined
    (hrelayed.registers hreply)

/-- A client that creates a publisher before `init` and a subscriber after it. -/
theorem handshake_agreement_first : ∃ micro,
    (BrokerSerial.new lenient).setup [.publisher (str "a")] [.subscriber (str "b") .string]
      = some micro ∧
    ∃ es s, Run Zenoh.succeeding ⟨micro, ⟨⟨[], [], 0⟩, .start lenient⟩, .new, [], []⟩ es s ∧
      .connected ∈ es ∧ s.up = [] ∧
      Agreement Zenoh.succeeding resourceName ([.publisher (str "a")] ++ BrokerSerial.initCalls
        ++ [.subscriber (str "b") .string]) s := by
  have hT := TinyCbor.reference_documented (.noError, .invalid)
  have hsome : ((BrokerSerial.new lenient).setup [.publisher (str "a")]
      [.subscriber (str "b") .string]).any (fun s =>
        (BrokerSerial.registrations s.broker).all fun m => m.frame.length ≤ 100) = true := by
    decide +kernel
  obtain ⟨micro, hsetup, hfits⟩ := (Option.any_eq_true _ _).mp hsome
  obtain ⟨es, s, hrun, hreply, hdone⟩ := handshake_completes hT (z := Zenoh.succeeding)
    ((BrokerSerial.setup_created rfl rfl hsetup).1.proper (by decide)) (by simpa using hfits)
    ⟨micro, ⟨⟨[], [], 0⟩, .start lenient⟩, .new, [], []⟩
    (BrokerSerial.setup_waiting rfl rfl rfl rfl hsetup) (Proxy.start_ready lenient) rfl rfl rfl
  exact ⟨micro, hsetup, es, s, hrun, hreply, hdone,
    handshake_agreement hT Zenoh.succeeding_succeeds (.new lenient) rfl rfl
      [.publisher (str "a")] [.subscriber (str "b") .string] (by decide)
      ⟨micro, ⟨⟨[], [], 0⟩, .start lenient⟩, .new, [], []⟩ hsetup (Proxy.start_ready lenient) rfl
      rfl rfl rfl es s hrun hreply hdone⟩

end ZenohProxy
