import ZenohProxy.Codec.Complete
import ZenohProxy.Micro.BrokerSerial

/-!
# When the link is given up

`connectTimer` sets `connected` to false when no uptime has come back for 5000 ms. The time it
compares with is written by the subscriber of the uptime only, while the reply to a connect
message, which sets `connected`, leaves it as it is. `fresh_link_kept_iff` says for which runs
no link is given up within 5000 ms of a sign of life: those in which an uptime has come back
within 5000 ms of each tick that comes so soon after a reply.
-/

namespace ZenohProxy

namespace BrokerSerial

variable {T : TinyCbor}

/-- A tick of a timer, a call of the client, or a frame off the serial line with what the
clock read when its end was seen. The clock as the handlers read it is in `l`. -/
inductive LinkInput where
  | keepAlive (millis : UInt64)
  | connectTimer (millis : UInt64)
  | client (n : Nat) (bs : Bytes)
  | frame (bs : Bytes) (millis : UInt64) (l : UptimeLocals)

/-- What the clock reads, in order. -/
def LinkInput.readings : LinkInput → List UInt64
  | .keepAlive millis => [millis]
  | .connectTimer millis => [millis]
  | .client .. => []
  | .frame _ millis l => [millis, l.millis, l.millisAfter]

def linkStep (s : BrokerSerial T) : LinkInput → BrokerSerial T × List MicroEvent
  | .keepAlive millis => s.onKeepAlive millis
  | .connectTimer millis => s.onConnectTimer millis
  | .client n bs => s.onClient n bs
  | .frame bs _ l => { s with locals := fun _ => l }.onFrame bs

/-- The two signs of life, with the time. -/
inductive Sign where
  | reply (millis : UInt64)
  | loopback (millis : UInt64)
  deriving DecidableEq

def Sign.millis : Sign → UInt64
  | .reply millis => millis
  | .loopback millis => millis

/-- What the handler of `uptimeSub` is called with, if it is. -/
def loopback (s : BrokerSerial T) (bs : Bytes) (l : UptimeLocals) : Option Nat :=
  if (s.filters .publish).passes bs then
    Subscriber.on ⟨s.uptimeSub, .uint64⟩ (.new T 100) l.id l.t bs
  else none

/-- The signs of life that are handled in a step: the handler of `uptimeSub` is called, or
that of `incomingConnect` is. -/
def signs (s : BrokerSerial T) : LinkInput → List Sign
  | .frame bs millis l =>
    (if (s.loopback bs l).isSome then [.loopback l.millisAfter] else [])
      ++ if (s.filters .connect).passes bs then [.reply millis] else []
  | _ => []

/-- A step with the signs of life in place of the events. -/
def signStep (s : BrokerSerial T) (i : LinkInput) : BrokerSerial T × List Sign :=
  ((s.linkStep i).1, s.signs i)

/-- The handler of `connectTimer` sets `connected` to false, whatever it was. -/
def GivesUp (s : BrokerSerial T) (millis : UInt64) : Prop :=
  ∀ connected, ({ s with connected }.onConnectTimer millis).1.connected = false

/-- At no tick of the run is a link given up that has shown a sign of life in the 5000 ms
before. -/
def FreshLinkKept (s : BrokerSerial T) (is : List LinkInput) : Prop :=
  ∀ before millis after, is = before ++ .connectTimer millis :: after →
    GivesUp (Mealy.run signStep s before).1 millis →
      ∀ sign ∈ (Mealy.run signStep s before).2, 5000 < millis - sign.millis

/-- At each tick within 5000 ms of a reply, an uptime has come back in the last 5000 ms; or
none has come back in the run, and the time that was there at the start is not older. -/
def LoopedBackSince (s : BrokerSerial T) (is : List LinkInput) : Prop :=
  ∀ before millis after, is = before ++ .connectTimer millis :: after →
    (∃ t, .reply t ∈ (Mealy.run signStep s before).2 ∧ millis - t ≤ 5000) →
      (∃ t, .loopback t ∈ (Mealy.run signStep s before).2 ∧ millis - t ≤ 5000) ∨
        (∀ t, .loopback t ∉ (Mealy.run signStep s before).2) ∧
          millis - s.loopbackReceived ≤ 5000

theorem givesUp_iff (s : BrokerSerial T) (millis : UInt64) :
    GivesUp s millis ↔ 5000 < millis - s.loopbackReceived := by
  simp only [GivesUp, onConnectTimer]
  constructor
  · intro h
    by_contra hfresh
    have := h true
    rw [if_neg hfresh] at this
    cases this
  · intro h connected
    exact if_pos h

/-! ## Frames off the serial line -/

/-- Only the subscriber of the uptime reads what it will find, one message at a time. -/
theorem handle_locals (s : BrokerSerial T) (locals : Nat → UptimeLocals) (bs : Bytes)
    {i : Incoming} (hi : i ≠ .publish ∨ s.locals 0 = locals 0) :
    ∃ locals', handle bs { s with locals } i
      = ({ (handle bs s i).1 with locals := locals' }, (handle bs s i).2) := by
  cases hpass : (s.filters i).passes bs with
  | false =>
    rw [handle_of_not_passes (s := s) hpass, handle_of_not_passes (s := { s with locals }) hpass]
    exact ⟨locals, rfl⟩
  | true =>
    rw [handle_of_passes (s := s) hpass, handle_of_passes (s := { s with locals }) hpass]
    cases i with
    | publish =>
      have hlocals := hi.resolve_left (by simp)
      simp only [onIncoming, onPublish, hlocals]
      split <;> exact ⟨_, rfl⟩
    | connect => exact ⟨locals, rfl⟩
    | disconnect => exact ⟨locals, rfl⟩

theorem onFrame_locals (s : BrokerSerial T) (locals : Nat → UptimeLocals) (bs : Bytes)
    (hlocals : s.locals 0 = locals 0) :
    ∃ locals', onFrame { s with locals } bs
      = ({ (s.onFrame bs).1 with locals := locals' }, (s.onFrame bs).2) := by
  obtain ⟨locals₁, h₁⟩ := s.handle_locals locals bs (i := .publish) (.inr hlocals)
  obtain ⟨locals₂, h₂⟩ := (handle bs s .publish).1.handle_locals locals₁ bs (i := .connect)
    (.inl (by decide))
  obtain ⟨locals₃, h₃⟩ := (handle bs (handle bs s .publish).1 .connect).1.handle_locals locals₂ bs
    (i := .disconnect) (.inl (by decide))
  refine ⟨locals₃, ?_⟩
  simp only [onFrame, Incoming.all, Mealy.run_cons, Mealy.run_nil, h₁, h₂, h₃]

theorem run_onFrame (s : BrokerSerial T) (locals : Nat → UptimeLocals)
    (frames : List (Bytes × UInt64)) :
    ∃ is, List.Forall₂ (fun frame i => ∃ l, i = .frame frame.1 frame.2 l) frames is ∧
      ∃ locals', Mealy.run linkStep { s with locals } is
        = ({ (Mealy.run onFrame s (frames.map Prod.fst)).1 with locals := locals' },
            (Mealy.run onFrame s (frames.map Prod.fst)).2) := by
  induction frames generalizing s locals with
  | nil => exact ⟨[], .nil, locals, rfl⟩
  | cons frame frames ih =>
    obtain ⟨bs, millis⟩ := frame
    obtain ⟨locals₁, hframe⟩ := s.onFrame_locals (fun _ => s.locals 0) bs rfl
    obtain ⟨is, his, locals', hrun⟩ := ih (s.onFrame bs).1 locals₁
    refine ⟨.frame bs millis (s.locals 0) :: is, .cons ⟨_, rfl⟩ his, locals', ?_⟩
    rw [Mealy.run_cons, linkStep, hframe, hrun]
    rfl

/-- **What comes off the serial line is a run of frames**, whatever the clock reads. -/
theorem onRxd_run (s : BrokerSerial T) (c : Chunk) {frames : List (Bytes × UInt64)}
    (hframes : emitted (BytesToFrame.handleRxd s.bytesToFrame c).2 = frames.map Prod.fst) :
    ∃ is, List.Forall₂ (fun frame i => ∃ l, i = .frame frame.1 frame.2 l) frames is ∧
      ∃ locals, Mealy.run linkStep
          { s with bytesToFrame := (BytesToFrame.handleRxd s.bytesToFrame c).1 } is
        = ({ (s.onRxd c).1 with locals }, (s.onRxd c).2) := by
  simp only [onRxd, hframes]
  exact run_onFrame { s with bytesToFrame := (BytesToFrame.handleRxd s.bytesToFrame c).1 }
    s.locals frames

theorem handle_publish_silent (s : BrokerSerial T) (bs : Bytes) :
    (handle bs s .publish).1.filters .connect = s.filters .connect ∧
      .connected ∉ (handle bs s .publish).2 := by
  cases hpass : (s.filters .publish).passes bs with
  | false => simp [handle_of_not_passes hpass, Function.update]
  | true =>
    simp only [handle_of_passes hpass, onIncoming, onPublish]
    split <;> simp [Function.update]

theorem connected_mem_handle_connect (s : BrokerSerial T) (bs : Bytes) :
    .connected ∈ (handle bs s .connect).2 ↔ (s.filters .connect).passes bs = true := by
  cases hpass : (s.filters .connect).passes bs with
  | false => simp [handle_of_not_passes hpass]
  | true => simp [handle_of_passes hpass, onIncoming, onConnect]

theorem handle_disconnect_silent (s : BrokerSerial T) (bs : Bytes) :
    (handle bs s .disconnect).2 = [] := by
  cases hpass : (s.filters .disconnect).passes bs with
  | false => rw [handle_of_not_passes hpass]
  | true => rw [handle_of_passes hpass, onIncoming]

/-- The handler of `incomingConnect` is called where a reply is handled. -/
theorem connected_mem_linkStep (s : BrokerSerial T) (i : LinkInput) :
    .connected ∈ (s.linkStep i).2 ↔ ∃ millis, .reply millis ∈ s.signs i := by
  cases i with
  | keepAlive millis =>
    rw [linkStep, onKeepAlive]
    split <;> simp [signs]
  | connectTimer millis => simp [linkStep, onConnectTimer, signs]
  | client n bs =>
    rw [linkStep, onClient]
    split <;> simp [signs]
  | frame bs millis l =>
    have hsigns : (∃ t, .reply t ∈ s.signs (.frame bs millis l)) ↔
        (s.filters .connect).passes bs = true := by
      simp only [signs, List.mem_append]
      by_cases hloop : (s.loopback bs l).isSome <;>
        by_cases hpass : (s.filters .connect).passes bs <;> simp [hloop, hpass]
    obtain ⟨hfilter, hevents⟩ := handle_publish_silent { s with locals := fun _ => l } bs
    rw [linkStep, onFrame, Incoming.all, Mealy.run_cons, Mealy.run_cons, Mealy.run_singleton,
      hsigns, ← hfilter]
    simp [hevents, connected_mem_handle_connect, handle_disconnect_silent]

/-! ## What a step writes -/

theorem onConnect_loopbackReceived (s : BrokerSerial T) :
    s.onConnect.1.loopbackReceived = s.loopbackReceived := rfl

/-- Only the filter of the publish messages leads to a handler that writes the time. -/
theorem handle_loopbackReceived (s : BrokerSerial T) (bs : Bytes) {i : Incoming}
    (hi : i ≠ .publish) :
    (handle bs s i).1.loopbackReceived = s.loopbackReceived := by
  cases hpass : (s.filters i).passes bs with
  | false => rw [handle_of_not_passes hpass]
  | true =>
    rw [handle_of_passes hpass]
    cases i with
    | publish => exact absurd rfl hi
    | connect => rw [onIncoming, onConnect_loopbackReceived]
    | disconnect => rfl

theorem handle_publish_loopbackReceived (s : BrokerSerial T) (bs : Bytes) :
    (handle bs s .publish).1.loopbackReceived
      = if (s.loopback bs (s.locals 0)).isSome then (s.locals 0).millisAfter
        else s.loopbackReceived := by
  cases hpass : (s.filters .publish).passes bs with
  | false => simp [handle_of_not_passes hpass, loopback, hpass]
  | true =>
    simp only [handle_of_passes hpass, loopback, hpass, onIncoming, onPublish, if_true]
    cases Subscriber.on ⟨s.uptimeSub, .uint64⟩ (.new T 100) (s.locals 0).id (s.locals 0).t bs <;>
      rfl

/-- **What a frame writes**: the time of a loopback, when one is handled. -/
theorem onFrame_loopbackReceived (s : BrokerSerial T) (bs : Bytes) :
    (s.onFrame bs).1.loopbackReceived
      = if (s.loopback bs (s.locals 0)).isSome then (s.locals 0).millisAfter
        else s.loopbackReceived := by
  rw [onFrame, Incoming.all, Mealy.run_cons, Mealy.run_cons, Mealy.run_singleton]
  dsimp only
  rw [handle_loopbackReceived _ _ (by decide), handle_loopbackReceived _ _ (by decide),
    handle_publish_loopbackReceived]

theorem mem_signs_loopback {s : BrokerSerial T} {i : LinkInput} {t : UInt64} :
    .loopback t ∈ s.signs i ↔
      ∃ bs millis l, i = .frame bs millis l ∧ (s.loopback bs l).isSome ∧ t = l.millisAfter := by
  cases i with
  | frame bs millis l =>
    simp only [signs, List.mem_append]
    by_cases hloop : (s.loopback bs l).isSome <;>
      by_cases hpass : (s.filters .connect).passes bs <;> simp [hloop, hpass]
  | _ => simp [signs]

/-- **One step**: the time is that of the loopback that is handled, if one is, and else stays
as it is. -/
theorem linkStep_loopbackReceived (s : BrokerSerial T) (i : LinkInput) :
    (.loopback (s.linkStep i).1.loopbackReceived ∈ s.signs i ∧
        ∀ t, .loopback t ∈ s.signs i → t = (s.linkStep i).1.loopbackReceived) ∨
      (s.linkStep i).1.loopbackReceived = s.loopbackReceived ∧ ∀ t, .loopback t ∉ s.signs i := by
  cases i with
  | keepAlive millis =>
    refine .inr ⟨?_, by simp [signs]⟩
    rw [linkStep, onKeepAlive]
    split <;> rfl
  | connectTimer millis => exact .inr ⟨rfl, by simp [signs]⟩
  | client n bs =>
    refine .inr ⟨?_, by simp [signs]⟩
    rw [linkStep, onClient]
    split <;> rfl
  | frame bs millis l =>
    have hwrites := onFrame_loopbackReceived { s with locals := fun _ => l } bs
    rw [show ({ s with locals := fun _ => l } : BrokerSerial T).loopback bs l
      = s.loopback bs l from rfl] at hwrites
    by_cases hloop : (s.loopback bs l).isSome
    · rw [if_pos hloop] at hwrites
      left
      rw [linkStep, hwrites]
      refine ⟨mem_signs_loopback.mpr ⟨bs, millis, l, rfl, hloop, rfl⟩, fun t ht => ?_⟩
      obtain ⟨_, _, _, heq, -, rfl⟩ := mem_signs_loopback.mp ht
      cases heq
      rfl
    · rw [if_neg hloop] at hwrites
      refine .inr ⟨hwrites, fun t ht => ?_⟩
      obtain ⟨_, _, _, heq, hhandled, -⟩ := mem_signs_loopback.mp ht
      cases heq
      exact hloop hhandled

theorem signs_readings {s : BrokerSerial T} {i : LinkInput} {sign : Sign}
    (hsign : sign ∈ s.signs i) : sign.millis ∈ i.readings := by
  cases i with
  | frame bs millis l =>
    simp only [signs, List.mem_append] at hsign
    rcases hsign with hsign | hsign
    · split at hsign
      · rw [List.mem_singleton.mp hsign]
        simp [Sign.millis, LinkInput.readings]
      · cases hsign
    · split at hsign
      · rw [List.mem_singleton.mp hsign]
        simp [Sign.millis, LinkInput.readings]
      · cases hsign
  | _ => simp [signs] at hsign

/-! ## What a run leaves -/

/-- A run is the same whether events or signs of life are collected. -/
theorem run_signStep_fst (s : BrokerSerial T) (is : List LinkInput) :
    (Mealy.run signStep s is).1 = (Mealy.run linkStep s is).1 := by
  rw [Mealy.run_fst, Mealy.run_fst]
  rfl

section

variable {s : BrokerSerial T} {is : List LinkInput}

theorem run_signs_readings {sign : Sign} (hsign : sign ∈ (Mealy.run signStep s is).2) :
    sign.millis ∈ is.flatMap LinkInput.readings := by
  induction is generalizing s with
  | nil => cases hsign
  | cons i is ih =>
    rw [Mealy.run_cons] at hsign
    rcases List.mem_append.mp hsign with hsign | hsign
    · exact List.mem_append_left _ (signs_readings hsign)
    · exact List.mem_append_right _ (ih hsign)

/-- **The time after a run** is that of a loopback, or the one at the start if there was
none. -/
theorem run_loopbackReceived (s : BrokerSerial T) (is : List LinkInput) :
    .loopback (Mealy.run signStep s is).1.loopbackReceived ∈ (Mealy.run signStep s is).2 ∨
      (Mealy.run signStep s is).1.loopbackReceived = s.loopbackReceived ∧
        ∀ t, .loopback t ∉ (Mealy.run signStep s is).2 := by
  induction is generalizing s with
  | nil => exact .inr ⟨rfl, by simp⟩
  | cons i is ih =>
    rw [Mealy.run_cons]
    rcases ih (s.linkStep i).1 with hlast | ⟨hsame, hnone⟩
    · exact .inl (List.mem_append_right _ hlast)
    · rcases s.linkStep_loopbackReceived i with ⟨hwritten, -⟩ | ⟨hkept, hsilent⟩
      · refine .inl (List.mem_append_left _ ?_)
        rw [show (Mealy.run signStep (s.signStep i).1 is).1.loopbackReceived
          = (s.linkStep i).1.loopbackReceived from hsame]
        exact hwritten
      · refine .inr ⟨hsame.trans hkept, fun t ht => ?_⟩
        exact (List.mem_append.mp ht).elim (hsilent t) (hnone t)

/-- Where the clock does not go back, it is that of the last one. -/
theorem loopback_le_loopbackReceived (hclock : (is.flatMap LinkInput.readings).Pairwise (· ≤ ·))
    {t : UInt64} (ht : .loopback t ∈ (Mealy.run signStep s is).2) :
    t ≤ (Mealy.run signStep s is).1.loopbackReceived := by
  induction is generalizing s with
  | nil => cases ht
  | cons i is ih =>
    rw [List.flatMap_cons, List.pairwise_append] at hclock
    rw [Mealy.run_cons] at ht ⊢
    rcases List.mem_append.mp ht with ht | ht
    · rcases run_loopbackReceived (s.signStep i).1 is with hlast | ⟨hsame, -⟩
      -- a later loopback has a later reading
      · exact hclock.2.2 _ (signs_readings ht) _ (run_signs_readings hlast)
      · rcases s.linkStep_loopbackReceived i with ⟨-, honly⟩ | ⟨-, hsilent⟩
        · have hlast : t = (Mealy.run signStep (s.signStep i).1 is).1.loopbackReceived :=
            (honly t ht).trans hsame.symm
          rw [← hlast]
          exact UInt64.le_refl t
        · exact absurd ht (hsilent t)
    · exact ih hclock.2.1 ht

theorem lt_sub_of_le {t last millis age : UInt64} (hle : t ≤ last) (hlast : last ≤ millis)
    (hold : age < millis - last) : age < millis - t := by
  rw [UInt64.lt_iff_toNat_lt] at hold ⊢
  rw [UInt64.toNat_sub_of_le _ _ hlast] at hold
  rw [UInt64.toNat_sub_of_le _ _ (UInt64.le_trans hle hlast)]
  rw [UInt64.le_iff_toNat_le] at hle
  omega

/-- Where the timer gives the link up, every loopback so far is too old. -/
theorem loopback_old_of_givesUp (hclock : (is.flatMap LinkInput.readings).Pairwise (· ≤ ·))
    {millis : UInt64} (hnow : ∀ t ∈ is.flatMap LinkInput.readings, t ≤ millis)
    (hup : GivesUp (Mealy.run signStep s is).1 millis) {t : UInt64}
    (ht : .loopback t ∈ (Mealy.run signStep s is).2) : 5000 < millis - t := by
  rw [givesUp_iff] at hup
  rcases run_loopbackReceived s is with hlast | ⟨-, hnone⟩
  · have hreading := hnow _ (run_signs_readings hlast)
    exact lt_sub_of_le (loopback_le_loopbackReceived hclock ht) hreading hup
  · exact absurd ht (hnone t)

/-- What the timer compares with is the time of a loopback, or that of the start. -/
theorem loopedBack_of_not_givesUp {millis : UInt64}
    (hup : ¬ GivesUp (Mealy.run signStep s is).1 millis) :
    (∃ t, .loopback t ∈ (Mealy.run signStep s is).2 ∧ millis - t ≤ 5000) ∨
      (∀ t, .loopback t ∉ (Mealy.run signStep s is).2) ∧
        millis - s.loopbackReceived ≤ 5000 := by
  rw [givesUp_iff, UInt64.not_lt] at hup
  rcases run_loopbackReceived s is with hlast | ⟨hsame, hnone⟩
  · exact .inl ⟨_, hlast, hup⟩
  · rw [hsame] at hup
    exact .inr ⟨hnone, hup⟩

end

/-- **When no fresh link is given up.** -/
theorem fresh_link_kept_iff (s : BrokerSerial T) (is : List LinkInput)
    (hclock : (is.flatMap LinkInput.readings).Pairwise (· ≤ ·)) :
    FreshLinkKept s is ↔ LoopedBackSince s is := by
  constructor
  · rintro hkept before millis after rfl ⟨t, hreply, hsoon⟩
    apply loopedBack_of_not_givesUp
    intro hup
    have hlong : 5000 < millis - (Sign.reply t).millis :=
      hkept before millis after rfl hup (.reply t) hreply
    exact UInt64.not_lt.mpr hsoon hlong
  · rintro hsince before millis after rfl hup sign hsign
    rw [List.flatMap_append, List.pairwise_append] at hclock
    have hloop {t : UInt64} (ht : .loopback t ∈ (Mealy.run signStep s before).2) :
        5000 < millis - t :=
      loopback_old_of_givesUp hclock.1
        (fun _ hreading => hclock.2.2 _ hreading millis (by simp [LinkInput.readings])) hup ht
    cases sign with
    | loopback t => exact hloop hsign
    | reply t =>
      by_contra hsoon
      rcases hsince before millis after rfl ⟨t, hsign, UInt64.not_lt.mp hsoon⟩
        with ⟨t', ht', hrecent⟩ | ⟨hnone, hrecent⟩
      · exact UInt64.not_lt.mpr hrecent (hloop ht')
      · rw [givesUp_iff] at hup
        rcases run_loopbackReceived s before with hlast | ⟨hsame, -⟩
        · exact hnone _ hlast
        · rw [hsame] at hup
          exact UInt64.not_lt.mpr hrecent hup

/-- The micro-controller says its uptime at 3000 ms. A reply and the uptime come back at once,
and the timer ticks 4980 ms later. -/
def loopedBack : List LinkInput :=
  [.keepAlive 3000,
    .frame (Cbor.encodeArray (MsgConnect.elements ⟨brokerDstPrefix⟩)) 3010 ⟨0, 0, 3010, 3010⟩,
    .frame (Cbor.encodeArray (MsgPublish.elements ⟨2, Cbor.encodeArray [.int 3000]⟩)) 3020
      ⟨0, 0, 3020, 3020⟩,
    .connectTimer 8000]

theorem fresh_link_kept_loopedBack : ∃ s, (BrokerSerial.new lenient).init = some s ∧
    LoopedBackSince s loopedBack ∧ FreshLinkKept s loopedBack := by
  obtain ⟨s, hinit, hsigns⟩ : ∃ s, (BrokerSerial.new lenient).init = some s ∧
      .loopback 3020 ∈ (Mealy.run signStep s (loopedBack.take 3)).2 :=
    ⟨_, rfl, by decide +kernel⟩
  have hsince : LoopedBackSince s loopedBack := by
    intro before millis after hsplit _
    -- the timer ticks only at the end
    obtain ⟨rfl, rfl⟩ : before = loopedBack.take 3 ∧ millis = 8000 := by
      rcases before with _ | ⟨_, _ | ⟨_, _ | ⟨_, _ | ⟨_, before⟩⟩⟩⟩ <;>
        simp_all [loopedBack]
    exact .inl ⟨3020, hsigns, by decide⟩
  exact ⟨s, hinit, hsince, (fresh_link_kept_iff s loopedBack (by decide)).mpr hsince⟩

/-- The reply to the second connect message comes 9010 ms after the start, and the timer
ticks at 10000 ms. -/
def answeredLate : List LinkInput :=
  [.keepAlive 8000, .keepAlive 9000,
    .frame (Cbor.encodeArray (MsgConnect.elements ⟨brokerDstPrefix⟩)) 9010 ⟨0, 0, 9010, 9010⟩,
    .connectTimer 10000]

/-- The link that has just been answered is given up: no uptime has gone out yet. -/
theorem fresh_link_given_up : ∃ s, (BrokerSerial.new lenient).init = some s ∧
    (answeredLate.flatMap LinkInput.readings).Pairwise (· ≤ ·) ∧
      ¬ FreshLinkKept s answeredLate := by
  refine ⟨_, rfl, by decide, fun hkept => ?_⟩
  have hdead := hkept (answeredLate.take 3) 10000 [] rfl
    (by rw [givesUp_iff]; decide +kernel) (.reply 9010) (by decide +kernel)
  exact absurd hdead (by decide)

end BrokerSerial

end ZenohProxy
