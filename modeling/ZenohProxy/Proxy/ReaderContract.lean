import ZenohProxy.Codec.Calls
import ZenohProxy.Proxy.Handlers

/-!
# What the handlers ask of the library

A received payload goes through the five filters, and from a filter to its handler. Each
reflects it with a deserializer of its own or with `fromCbor`. `onFrameCalls` lists the calls
of the library this makes, `Handler.reflect` being the decoding of a handler for any
`Reflector`. `reader_contract_iff` says for which payloads every call is in contract.
-/

namespace ZenohProxy

open Cbor (Cursor)
open CborDeserializer Traced

/-- The decoding of a handler. -/
def Handler.reflect {R : Type} [Reflector R] (h : Handler) (local_ : Int) (r : R) : R :=
  match h with
  | .connect => (MsgConnect.reflect ⟨[]⟩ r).2
  | .subscriber => (MsgSubscriber.reflect ⟨local_, []⟩ r).2
  | .publisher => (MsgPublisher.reflect ⟨local_, []⟩ r).2
  | .publish => (MsgPublish.reflect ⟨local_, []⟩ r).2
  | .disconnect => (MsgDisconnect.reflect ⟨⟩ r).2

theorem Handler.decode_reflect {T : TinyCbor} (h : Handler) (local_ : Int)
    (d : CborDeserializer T) : (h.decode local_ d).2 = h.reflect local_ d := by
  cases h <;> rfl

theorem Handler.erase_reflect {T : TinyCbor} (h : Handler) (local_ : Int) (t : Traced T) :
    (h.reflect local_ t).reader = h.reflect local_ t.reader := by
  cases h <;> rfl

/-- The calls a filter makes. -/
def MsgFilter.calls {T : TinyCbor} (f : MsgFilter T) (payload : Bytes) : List ReaderCall :=
  (f.msgBase.reflect (Traced.of (f.fromCbor.fromBytes payload))).2.calls

namespace Proxy

variable {T : TinyCbor}

/-- The calls of a filter and, if the frame passes it, of its handler. -/
def handleCalls (frame : Bytes) (p : Proxy T) (h : Handler) : List ReaderCall :=
  (p.filters h).calls frame ++
    match ((p.filters h).on frame).2 with
    | none => []
    | some frame =>
      (h.reflect (p.locals 0) (Traced.of (p.fromCbor.fromBytes frame))).calls

/-- The calls for a frame. -/
def onFrameCalls (p : Proxy T) (frame : Bytes) : List ReaderCall :=
  (Mealy.run (fun p h => ((handle frame p h).1, handleCalls frame p h)) p Handler.all).2

/-- The types the filters have last decoded. -/
def types (p : Proxy T) (h : Handler) : Int := (p.filters h).msgBase.msgType

end Proxy

/-- Every call is in contract, whichever library it is and whatever was received before that
has left these types in the filters. -/
def ReadsInContract (stale : Handler → Int) (payload : Bytes) : Prop :=
  ∀ T : TinyCbor, T.Documented → ∀ p : Proxy T, p.Ready → ∀ before : List Bytes,
    (p.onFrames before).1.types = stale →
      ∀ call ∈ (p.onFrames before).1.onFrameCalls payload, call.InContract

/-- The number of members of fixed size in front of the string of a message, if it has one. -/
def Handler.beforeString : Handler → Option Nat
  | .connect => some 1
  | .subscriber | .publisher | .publish => some 2
  | .disconnect => none

/-- The message of a handler has its string's place filled. -/
def Handler.MembersIn (h : Handler) (bs : Bytes) : Prop :=
  ∀ n, h.beforeString = some n → ∃ c, Cursor.afterFixed bs n = some c ∧ c.isElem

/-- The payload opens a container whose first element is of fixed size. If that can be passed
over and is the type of a handler, or is no integer and the type decoded before was that,
then an element stands where the string of the handler's message is due, with elements of
fixed size only in front of it. -/
def MembersPresent (stale : Handler → Int) (payload : Bytes) : Prop :=
  ∃ c, Cursor.opened (payload.take 1024) = some c ∧ c.isFixed ∧
    ∀ h : Handler, c.passFixed ≠ none →
      ((c.head?.bind Cbor.Head.int?).map toInt32).getD (stale h) = h.msgType.code →
        h.MembersIn (payload.take 1024)

/-! ## A frame, handler by handler -/

namespace Proxy

variable {T : TinyCbor}

theorem handle_fromCbor_capacity (frame : Bytes) (p : Proxy T) (h : Handler) :
    (handle frame p h).1.fromCbor.capacity = p.fromCbor.capacity := by
  rw [handle]
  cases hout : ((p.filters h).on frame).2 with
  | none => simp only [hout]
  | some frame' =>
    have hcapacity := capacity_decode h (p.locals 0) (p.fromCbor.fromBytes frame')
    simp only [hout]
    split
    · split <;> exact hcapacity
    · exact hcapacity

theorem handle_filters_of_ne (frame : Bytes) (p : Proxy T) {h h' : Handler} (hne : h' ≠ h) :
    (handle frame p h).1.filters h' = p.filters h' := by
  rw [handle]
  cases hout : ((p.filters h).on frame).2 with
  | none => simp [hout, hne]
  | some frame' =>
    simp only [hout]
    split
    · split <;> simp [connectReply, hne]
    · simp [hne]

/-- Which calls a decode makes depends on the octets it is given, and on nothing the
deserializer or the message held before. -/
theorem calls_reflect_congr (h : Handler) (local_ local' : Int) {d d' : CborDeserializer T}
    (hcapacity : d'.capacity = d.capacity) (frame : Bytes) :
    (h.reflect local' (Traced.of (d'.fromBytes frame))).calls
      = (h.reflect local_ (Traced.of (d.fromBytes frame))).calls := by
  have hbegin : SameAt (Traced.of (d.fromBytes frame)).begin_
      (Traced.of (d'.fromBytes frame)).begin_ :=
    sameAt_begin (by simp only [fromBytes, hcapacity])
  cases h with
  | connect => exact (hbegin.memberConst _).memberString_calls []
  | subscriber => exact ((hbegin.memberConst _).memberInt local_ local').memberString_calls []
  | publisher => exact ((hbegin.memberConst _).memberInt local_ local').memberString_calls []
  | publish => exact ((hbegin.memberConst _).memberInt local_ local').memberBytes_calls []
  | disconnect => exact (hbegin.memberConst MsgType.disconnect.code).calls

theorem handleCalls_congr {p p' : Proxy T} {h : Handler}
    (hfilter : p'.filters h = p.filters h)
    (hcapacity : p'.fromCbor.capacity = p.fromCbor.capacity) (frame : Bytes) :
    handleCalls frame p' h = handleCalls frame p h := by
  unfold handleCalls
  rw [hfilter]
  cases ((p.filters h).on frame).2 with
  | none => rfl
  | some frame' => exact congrArg _ (calls_reflect_congr h _ _ hcapacity frame')

theorem run_handleCalls (frame : Bytes) (p : Proxy T) {hs : List Handler} (hnodup : hs.Nodup) :
    (Mealy.run (fun p h => ((handle frame p h).1, handleCalls frame p h)) p hs).2
      = hs.flatMap (handleCalls frame p) := by
  induction hs generalizing p with
  | nil => rfl
  | cons h hs ih =>
    rw [List.nodup_cons] at hnodup
    rw [Mealy.run_cons, ih _ hnodup.2, List.flatMap_cons]
    refine congrArg (handleCalls frame p h ++ ·) (List.flatMap_congr fun h' hmem => ?_)
    -- a handler comes once, so its filter is as it was before the others
    have hne : h' ≠ h := fun heq => hnodup.1 (by rwa [← heq])
    exact handleCalls_congr (handle_filters_of_ne frame p hne)
      (handle_fromCbor_capacity frame p h) frame

/-- **Each filter and its handler read a frame on their own.** -/
theorem mem_onFrameCalls {p : Proxy T} {frame : Bytes} {call : ReaderCall} :
    call ∈ p.onFrameCalls frame ↔ ∃ h, call ∈ handleCalls frame p h := by
  have hall : ∀ h, h ∈ Handler.all := by intro h; cases h <;> decide
  rw [onFrameCalls, run_handleCalls frame p (by decide), List.mem_flatMap]
  exact ⟨fun ⟨h, _, hcall⟩ => ⟨h, hcall⟩, fun ⟨h, hcall⟩ => ⟨h, hall h, hcall⟩⟩

end Proxy

/-! ## What a payload asks for -/

section

variable {T : TinyCbor} {payload : Bytes}

/-- The filter looks at the first element. -/
theorem MsgFilter.calls_inContract (hT : T.Moves) {f : MsgFilter T}
    (hcapacity : f.fromCbor.capacity = 1024) {c : Cursor}
    (hopened : Cursor.opened (payload.take 1024) = some c) (hfixed : c.isFixed) :
    ∀ call ∈ f.calls payload, call.InContract := by
  have hbegin := within_begin hT f.fromCbor payload
  rw [hcapacity] at hbegin
  exact (inContract_memberInt f.msgBase.msgType).mpr (hbegin.fixed_at hopened hfixed)

/-- The handler looks at the members of its message. -/
theorem Handler.calls_inContract (hT : T.Moves) (h : Handler) (local_ : Int)
    {d : CborDeserializer T} (hcapacity : d.capacity = 1024) {c : Cursor}
    (hopened : Cursor.opened (payload.take 1024) = some c) (hfixed : c.isFixed)
    (hmembers : h.MembersIn (payload.take 1024)) :
    (h.reflect local_ (Traced.of (d.fromBytes payload))).InContract := by
  have hbegin := within_begin hT d payload
  rw [hcapacity] at hbegin
  -- the string is passed over where its element stands
  have hlast {n : Nat} {t : Traced T} (hn : h.beforeString = some n)
      (ht : t.Within (payload.take 1024) n) : t.InContract ∧ t.reader.it.isElem := by
    obtain ⟨c', hc', helem⟩ := hmembers n hn
    exact ht.elem_at hc' helem
  cases h with
  | connect =>
    exact (inContract_memberString []).mpr (hlast rfl (hbegin.memberConst hT _))
  | subscriber =>
    exact (inContract_memberString []).mpr
      (hlast rfl ((hbegin.memberConst hT _).memberInt hT local_))
  | publisher =>
    exact (inContract_memberString []).mpr
      (hlast rfl ((hbegin.memberConst hT _).memberInt hT local_))
  | publish =>
    exact (inContract_memberBytes []).mpr
      (hlast rfl ((hbegin.memberConst hT _).memberInt hT local_))
  | disconnect =>
    exact (inContract_memberConst MsgType.disconnect.code).mpr (hbegin.fixed_at hopened hfixed)

/-- An element that the lenient library stands at is one that is there. -/
theorem getD_invalid_isElem {move : Option Cursor} (helem : (move.getD .invalid).isElem) :
    ∃ c, move = some c ∧ c.isElem := by
  cases move with
  | none => cases helem
  | some c => exact ⟨c, rfl, helem⟩

/-- Where the filter stays in contract with the lenient library, the payload opens at an
element of fixed size. -/
theorem MsgFilter.opened_of_calls {f : MsgFilter lenient}
    (hcapacity : f.fromCbor.capacity = 1024)
    (hcalls : ∀ call ∈ f.calls payload, call.InContract) :
    ∃ c, Cursor.opened (payload.take 1024) = some c ∧ c.isFixed := by
  have hit := lenient_begin f.fromCbor payload
  rw [hcapacity] at hit
  have hfixed : ((Cursor.opened (payload.take 1024)).getD .invalid).isFixed :=
    hit ▸ ((inContract_memberInt f.msgBase.msgType).mp hcalls).2
  cases hopened : Cursor.opened (payload.take 1024) with
  | none =>
    rw [hopened] at hfixed
    cases hfixed
  | some c =>
    rw [hopened] at hfixed
    exact ⟨c, rfl, hfixed⟩

theorem Handler.membersIn_of_calls (h : Handler) (local_ : Int)
    {d : CborDeserializer lenient} (hcapacity : d.capacity = 1024)
    (hcalls : (h.reflect local_ (Traced.of (d.fromBytes payload))).InContract) :
    h.MembersIn (payload.take 1024) := by
  have hbegin := lenient_begin d payload
  rw [hcapacity] at hbegin
  intro n hn
  cases h with
  | connect =>
    obtain rfl := Option.some.inj hn
    have helem := ((inContract_memberString []).mp hcalls).2
    have hconst := lenient_memberConst hbegin MsgType.connect.code
    exact getD_invalid_isElem (hconst ▸ helem)
  | subscriber =>
    obtain rfl := Option.some.inj hn
    have helem := ((inContract_memberString []).mp hcalls).2
    have hid := lenient_memberInt (lenient_memberConst hbegin MsgType.subscriber.code) local_
    exact getD_invalid_isElem (hid ▸ helem)
  | publisher =>
    obtain rfl := Option.some.inj hn
    have helem := ((inContract_memberString []).mp hcalls).2
    have hid := lenient_memberInt (lenient_memberConst hbegin MsgType.publisher.code) local_
    exact getD_invalid_isElem (hid ▸ helem)
  | publish =>
    obtain rfl := Option.some.inj hn
    have helem := ((inContract_memberBytes []).mp hcalls).2
    have hid := lenient_memberInt (lenient_memberConst hbegin MsgType.publish.code) local_
    exact getD_invalid_isElem (hid ▸ helem)
  | disconnect => cases hn

end

/-! ## Exactly which payloads keep to the contract -/

section

variable {stale : Handler → Int} {payload : Bytes}

/-- A handler is reached by what its filter lets pass. -/
theorem Proxy.mem_handleCalls {T : TinyCbor} {p : Proxy T} {h : Handler} {call : ReaderCall} :
    call ∈ handleCalls payload p h ↔
      call ∈ (p.filters h).calls payload ∨
        (p.filters h).passes payload = true ∧
          call ∈ (h.reflect (p.locals 0) (Traced.of (p.fromCbor.fromBytes payload))).calls := by
  rw [handleCalls, List.mem_append, (p.filters h).on_eq payload]
  by_cases hpasses : (p.filters h).passes payload = true
  · simp [hpasses]
  · simp [hpasses]

theorem readsInContract_of_membersPresent (h : MembersPresent stale payload) :
    ReadsInContract stale payload := by
  intro T hT p hp before htypes call hcall
  obtain ⟨c, hopened, hfixed, hmembers⟩ := h
  have hready := Proxy.onFrames_ready hT hp before
  obtain ⟨handler, hcall⟩ := Proxy.mem_onFrameCalls.mp hcall
  rcases Proxy.mem_handleCalls.mp hcall with hcall | ⟨hpasses, hcall⟩
  · exact MsgFilter.calls_inContract hT.moves (hready.filters handler).capacity hopened hfixed
      call hcall
  · -- the first element was passed over, and gave the type of the handler
    obtain ⟨hpass, htype⟩ := (MsgFilter.passes_of_opened hT (hready.filters handler) hopened
      hfixed).mp hpasses
    rw [← htypes] at hmembers
    exact Handler.calls_inContract hT.moves handler _ hready.fromCbor hopened hfixed
      (hmembers handler hpass htype) call hcall

/-- A proxy with the lenient library, whose filters have last decoded some types. -/
def Proxy.lenientWith (stale : Handler → Int) : Proxy lenient :=
  { start lenient with filters := fun h => MsgFilter.lenientFor h.msgType.code (stale h) }

theorem Proxy.lenientWith_ready (stale : Handler → Int) : (lenientWith stale).Ready :=
  ⟨fun _ => ⟨rfl, rfl⟩, rfl, rfl⟩

theorem membersPresent_of_readsInContract (h : ReadsInContract stale payload) :
    MembersPresent stale payload := by
  have hT := TinyCbor.reference_documented (.noError, .invalid)
  have hready := Proxy.lenientWith_ready stale
  have hcalls (handler : Handler) (call : ReaderCall)
      (hcall : call ∈ Proxy.handleCalls payload (Proxy.lenientWith stale) handler) :
      call.InContract :=
    h lenient hT (Proxy.lenientWith stale) hready [] rfl call
      (Proxy.mem_onFrameCalls.mpr ⟨handler, hcall⟩)
  -- any filter tells where the payload opens
  obtain ⟨c, hopened, hfixed⟩ := MsgFilter.opened_of_calls (hready.filters .connect).capacity
    fun call hcall => hcalls .connect call (Proxy.mem_handleCalls.mpr (.inl hcall))
  refine ⟨c, hopened, hfixed, fun handler hpass htype => ?_⟩
  have hpasses := (MsgFilter.passes_of_opened hT (hready.filters handler) hopened hfixed).mpr
    ⟨hpass, htype⟩
  exact handler.membersIn_of_calls _ hready.fromCbor fun call hcall =>
    hcalls handler call (Proxy.mem_handleCalls.mpr (.inr ⟨hpasses, hcall⟩))

/-- **Exactly when a payload keeps the reader within its contract.** The payload opens a
container at an element of fixed size, and where that passes a filter, all members of the
handler's message are there. -/
theorem reader_contract_iff (stale : Handler → Int) (payload : Bytes) :
    ReadsInContract stale payload ↔ MembersPresent stale payload :=
  ⟨membersPresent_of_readsInContract, readsInContract_of_membersPresent⟩

/-- `[4]` is a publish message without its members. -/
theorem reader_leaves_contract :
    pppDeframe (pppBody [0x81, 0x04]) = (true, [0x81, 0x04]) ∧
      ∀ stale, ¬ ReadsInContract stale [0x81, 0x04] := by
  refine ⟨pppDeframe_pppBody (by decide), fun stale hreads => ?_⟩
  obtain ⟨c, hopened, -, hmembers⟩ := membersPresent_of_readsInContract hreads
  obtain rfl : Cursor.elem (.counted 1) (.uint 4) [] = c := Option.some.inj hopened
  obtain ⟨c, hc, -⟩ := hmembers .publish (by decide) rfl 2 rfl
  -- the array ends after its type
  have hnone : Cursor.afterFixed ([0x81, 0x04].take 1024) 2 = none := rfl
  rw [hnone] at hc
  cases hc

end

end ZenohProxy
