import ZenohProxy.Micro.Broker

/-!
# What a subscriber emits

The lambda of `Subscriber<uint64_t>` decodes the publish message, then its value with the same
decoder, and returns true when the first decode succeeded; the result of the second is
computed and dropped. `emits_decoded_iff` says for which frames what is emitted is what the
value holds: those of which the message does not decode, and those with a value that is an
array starting with an unsigned integer.
-/

namespace ZenohProxy

open Cbor (Cursor StartsArray)
open CborDeserializer

/-- The frame is an array of two integers and a byte string, and the string is a CBOR array
of which the first element is the unsigned integer `v`. -/
def Carries (frame : Bytes) (v : Nat) : Prop :=
  ∃ type id value, StartsArray [.int type, .int id, .string .bytes value] frame
    ∧ Cbor.isArray value = true ∧ StartsArray [.int v] value

/-- Whatever its variables hold, the subscriber emits only the integer that the frame
carries. -/
def EmitsDecoded (frame : Bytes) : Prop :=
  ∀ T : TinyCbor, T.Documented → ∀ (r : Resource) (fromCbor : CborDeserializer T)
    (local_ : Int) (t v : Nat), fromCbor.capacity = 100 →
      Subscriber.on ⟨r, .uint64⟩ fromCbor local_ t frame = some v → Carries frame v

theorem Carries.unique {frame : Bytes} {v w : Nat} (hv : Carries frame v)
    (hw : Carries frame w) : v = w := by
  obtain ⟨type, id, value, hframe, -, hvalue⟩ := hv
  obtain ⟨type', id', value', hframe', -, hvalue'⟩ := hw
  have hsame := hframe.unique hframe' rfl
  simp only [List.cons.injEq, Cbor.Scalar.string.injEq, and_true, true_and] at hsame
  rw [hsame.2.2] at hvalue
  have hint := hvalue.unique hvalue' rfl
  simp only [List.cons.injEq, Cbor.Scalar.int.injEq, and_true] at hint
  exact Int.ofNat.inj hint

/-! ## The two decodes -/

section

variable {T : TinyCbor} {fromCbor : CborDeserializer T} {frame : Bytes} {c : Cursor}

/-- The decoder, when the message is decoded. -/
def outer (fromCbor : CborDeserializer T) (local_ : Int) (frame : Bytes) :
    MsgPublish × CborDeserializer T :=
  MsgPublish.reflect ⟨local_, []⟩ (fromCbor.fromBytes frame)

/-- The lambda in its two steps. -/
theorem Subscriber.on_uint64 (r : Resource) (local_ : Int) (t : Nat) :
    Subscriber.on ⟨r, .uint64⟩ fromCbor local_ t frame
      = if (outer fromCbor local_ frame).2.success then
          some (((outer fromCbor local_ frame).2.fromBytes
            (outer fromCbor local_ frame).1.value).begin_.memberUint64 t).1
        else none := rfl

theorem capacity_outer (local_ : Int) :
    (outer fromCbor local_ frame).2.capacity = fromCbor.capacity := by
  rw [outer, MsgPublish.capacity_reflect, capacity_fromBytes]

/-- The decoder stands at the value when two elements have been passed over. -/
theorem follows_outer (hT : T.Moves) (hcapacity : fromCbor.capacity = 100) (local_ : Int) :
    (((fromCbor.fromBytes frame).begin_.memberConst MsgType.publish.code).memberInt
      local_).2.Follows (frame.take 100) 2 := by
  have hbegin := follows_begin hT fromCbor frame
  rw [hcapacity] at hbegin
  exact (hbegin.memberConst hT MsgType.publish.code).memberInt hT local_

/-- The message decodes where its last element can be passed over. -/
theorem success_outer (hT : T.Moves) (hcapacity : fromCbor.capacity = 100) (local_ : Int)
    (hc : Cursor.afterFixed (frame.take 100) 2 = some c) (helem : c.isElem) :
    (outer fromCbor local_ frame).2.success = (c.pass cborMaxRecursions).isSome :=
  (follows_outer hT hcapacity local_).last hc helem (memberBytes_reached hT [])

/-- The value is the byte string that stands there. -/
theorem value_outer (hT : T.Documented) (hcapacity : fromCbor.capacity = 100) (local_ : Int)
    (hc : Cursor.afterFixed (frame.take 100) 2 = some c) {value : Bytes}
    (hvalue : c.string? .bytes = some value) : (outer fromCbor local_ frame).1.value = value := by
  obtain ⟨herr, hit⟩ := reached_some.mp (follows_outer hT.moves hcapacity local_ c hc)
  have hread := memberBytes_value hT [] herr
  rw [hit, hvalue, Option.getD_some] at hread
  exact hread

/-- An array that starts with an unsigned integer is decoded to it. -/
theorem inner_value (hT : T.Documented) (hcapacity : fromCbor.capacity = 100) {value : Bytes}
    {v : Nat} (harray : Cbor.isArray value = true) (hstarts : StartsArray [.int v] value)
    (t : Nat) : ((fromCbor.fromBytes value).begin_.memberUint64 t).1 = v := by
  obtain ⟨extent, rest, hopened⟩ := Cbor.opened_of_isArray harray hstarts (n := 100) (by decide)
  have hbegin := follows_begin hT.moves fromCbor value
  rw [hcapacity] at hbegin
  obtain ⟨herr, hit⟩ := reached_some.mp (hbegin _ hopened)
  have hhead : Cbor.intHead (v : Int) = .uint v := by simp [Cbor.intHead]
  rw [hhead] at hit
  exact memberUint64_value hT t herr hit

end

/-! ## Where nothing stands for the value -/

/-- The lenient library leaves the variable as it was when the value is empty. -/
theorem lenient_inner_nil (d : CborDeserializer lenient) (t : Nat) :
    ((d.fromBytes []).begin_.memberUint64 t).1 = t := by
  have hit := lenient_begin d []
  rw [List.take_nil] at hit
  have hunsigned : isUnsignedInteger (d.fromBytes []).begin_.it = false := by
    rw [hit]
    rfl
  simp [memberUint64, hunsigned]

/-- With no third element, it emits whatever its variable held. -/
theorem lenient_emits_stale {frame : Bytes} (r : Resource)
    (hastray : ((Cursor.afterFixed (frame.take 100) 2).getD .invalid).isElem = false) (t : Nat) :
    Subscriber.on ⟨r, .uint64⟩ (.new lenient 100) 0 t frame = some t := by
  have hit := lenient_memberInt (lenient_memberConst
    (lenient_begin (CborDeserializer.new lenient 100) frame) MsgType.publish.code) 0
  obtain ⟨hvalue, hsuccess⟩ := lenient_memberBytes_astray (hit.symm ▸ hastray) []
  have hvalue' : (outer (.new lenient 100) 0 frame).1.value = [] := hvalue
  have hsuccess' : (outer (.new lenient 100) 0 frame).2.success = true := hsuccess
  rw [Subscriber.on_uint64, if_pos hsuccess', hvalue', lenient_inner_nil]

/-- **When a subscriber emits only what it decoded.** After two elements of fixed size stands
a third, and either it cannot be passed over, so that nothing is emitted, or the frame carries
an unsigned integer. -/
theorem emits_decoded_iff (frame : Bytes) :
    EmitsDecoded frame ↔ LastDecides 100 frame 2 (∃ v, Carries frame v) := by
  constructor
  · intro hemits
    have hT := TinyCbor.reference_documented (.noError, .invalid)
    have hlenient := hemits lenient hT ⟨0, []⟩ (.new lenient 100) 0
    rcases elem_or_astray (frame.take 100) 2 with ⟨c, hc, helem⟩ | hastray
    · refine ⟨c, hc, helem, ?_⟩
      cases hpass : c.pass cborMaxRecursions with
      | none => exact .inl rfl
      | some c' =>
        have hsuccess : (outer (.new lenient 100) 0 frame).2.success
            = (c.pass cborMaxRecursions).isSome := success_outer hT.moves rfl 0 hc helem
        rw [hpass, Option.isSome_some] at hsuccess
        exact .inr ⟨_, hlenient 0 _ rfl (by rw [Subscriber.on_uint64, if_pos hsuccess])⟩
    · -- two values of the variable would both be carried
      have hzero := hlenient 0 0 rfl (lenient_emits_stale ⟨0, []⟩ hastray 0)
      have hone := hlenient 1 1 rfl (lenient_emits_stale ⟨0, []⟩ hastray 1)
      exact absurd (hzero.unique hone) (by decide)
  · rintro ⟨c, hc, helem, hdecides⟩ T hT r fromCbor local_ t v hcapacity hon
    rw [Subscriber.on_uint64, success_outer hT.moves hcapacity local_ hc helem] at hon
    split at hon
    · rename_i hpass
      rw [Option.isSome_iff_ne_none] at hpass
      obtain ⟨w, hcarries⟩ := hdecides.resolve_left hpass
      obtain ⟨type, id, value, hframe, harray, hstarts⟩ := hcarries
      -- the byte string is read whole from the octets that fit the decoder
      rw [← List.take_append_drop 100 frame] at hframe
      have hvalue := (Cursor.readsFrom_start hframe).next.next.string hc helem hpass
      rw [value_outer hT hcapacity local_ hc hvalue,
        inner_value hT ((capacity_outer local_).trans hcapacity) harray hstarts t] at hon
      rw [← Option.some.inj hon]
      rw [List.take_append_drop] at hframe
      exact ⟨type, id, value, hframe, harray, hstarts⟩
    · cases hon

/-- A publish message with an empty value makes the subscriber emit what its variable held. -/
theorem emits_undecoded : ¬ ∀ frame, EmitsDecoded frame := by
  intro h
  have hemits : Subscriber.on ⟨⟨0, []⟩, .uint64⟩ (.new lenient 100) 0 (7 : Nat)
      [0x83, 0x04, 0x00, 0x40] = some (7 : Nat) := rfl
  obtain ⟨type, id, value, hframe, harray, -⟩ := h [0x83, 0x04, 0x00, 0x40] lenient
    (TinyCbor.reference_documented _) ⟨0, []⟩ (.new lenient 100) 0 7 7 rfl hemits
  obtain ⟨len, rest, after, hhead, -, hread⟩ := hframe
  have hopen : Cbor.readHead [0x83, 0x04, 0x00, 0x40]
      = some (.array (some 3), [0x04, 0x00, 0x40]) := rfl
  rw [hopen] at hhead
  cases hhead
  have hscalars : Cbor.readScalars 3 [0x04, 0x00, 0x40]
      = some ([.int 4, .int 0, .string .bytes []], []) := rfl
  rw [List.length_cons, List.length_cons, List.length_singleton, hscalars] at hread
  simp only [Option.some.injEq, Prod.mk.injEq, List.cons.injEq,
    Cbor.Scalar.string.injEq, true_and, and_true] at hread
  rw [← hread.1.2.2] at harray
  cases harray

end ZenohProxy
