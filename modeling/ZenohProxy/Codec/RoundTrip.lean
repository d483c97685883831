import ZenohProxy.Codec.Deserializer
import ZenohProxy.Codec.Serializer

/-!
# What is written is read back

Every message decodes to itself from its own encoding, whatever the deserializer and the
message decoded into held before. A text comes back up to its first zero.
-/

namespace ZenohProxy

open Cbor (Cursor Scalar encodeArray)
open CborDeserializer

theorem fits_int {v : Int} (hv : IsInt32 v) : (Scalar.int v).Fits := by
  unfold IsInt32 at hv
  exact ⟨by omega, by omega⟩

theorem length_lt_encodeArray {xs : List Scalar} {kind : Cbor.StringKind} {s : Bytes}
    (hmem : Scalar.string kind s ∈ xs) : s.length < (encodeArray xs).length := by
  have hle : (Cbor.encodeScalar (.string kind s)).length ≤ (Cbor.encodeScalars xs).length :=
    (List.sublist_flatten_of_mem (List.mem_map_of_mem hmem)).length_le
  rw [Cbor.length_encodeArray]
  rw [Cbor.encodeScalar, Cbor.encodeString, List.length_append] at hle
  omega

/-- A message that fits a decoder has nothing in it that a head has no room for. -/
theorem fits_of_length {xs : List Scalar} (hint : ∀ v, Scalar.int v ∈ xs → IsInt32 v)
    (hlen : (encodeArray xs).length ≤ 1024) : ∀ x ∈ xs, x.Fits := by
  intro x hx
  cases x with
  | int v => exact fits_int (hint v hx)
  | string kind s =>
    have := length_lt_encodeArray hx
    show s.length < 2 ^ 64
    omega

theorem fits_elements {k v : Int} {kind : Cbor.StringKind} {s : Bytes} (hk : IsInt32 k)
    (hv : IsInt32 v)
    (hlen : (encodeArray [Scalar.int k, .int v, .string kind s]).length ≤ 1024) :
    ∀ x ∈ [Scalar.int k, .int v, .string kind s], x.Fits := by
  refine fits_of_length (fun w hw => ?_) hlen
  simp only [List.mem_cons, Scalar.int.injEq, reduceCtorEq, List.not_mem_nil, or_false] at hw
  exact hw.elim (· ▸ hk) (· ▸ hv)

theorem fits_single {k : Int} {kind : Cbor.StringKind} {s : Bytes} (hk : IsInt32 k)
    (hlen : (encodeArray [Scalar.int k, .string kind s]).length ≤ 1024) :
    ∀ x ∈ [Scalar.int k, .string kind s], x.Fits := by
  refine fits_of_length (fun w hw => ?_) hlen
  simp only [List.mem_cons, Scalar.int.injEq, reduceCtorEq, List.not_mem_nil, or_false] at hw
  exact hw ▸ hk

theorem MsgPublish.fits {m : MsgPublish} (hid : IsInt32 m.id) (hvalue : m.value.length < 2 ^ 64) :
    ∀ x ∈ m.elements, x.Fits := by
  simp only [elements, List.mem_cons, List.not_mem_nil, or_false]
  rintro x (rfl | rfl | rfl)
  · exact fits_int (MsgType.isInt32_code .publish)
  · exact fits_int hid
  · exact hvalue

section

variable {T : TinyCbor} (hT : T.Documented)
include hT

namespace CborDeserializer

variable {d : CborDeserializer T} {xs : List Scalar}

theorem begin_atScalars (hxs : ∀ x ∈ xs, x.Fits) (d : CborDeserializer T)
    (hfit : (encodeArray xs).length ≤ d.capacity) :
    (d.fromBytes (encodeArray xs)).begin_.Reached (some (Cursor.atScalars xs [])) := by
  apply begin_spec hT.moves
  rw [fromBytes, List.take_of_length_le hfit]
  exact Cbor.opened_encodeArray hxs

variable {rest : Bytes}

theorem memberConst_atScalars {v : Int} (hxs : ∀ x ∈ Scalar.int v :: xs, x.Fits)
    (hd : d.Reached (some (Cursor.atScalars (.int v :: xs) rest))) (t : Int) :
    (d.memberConst t).Reached (some (Cursor.atScalars xs rest)) := by
  obtain ⟨-, hit⟩ := reached_some.mp hd
  have h := memberConst_spec hT.moves t (d := d) (by rw [hit]; exact Cursor.atScalars_isFixed v)
  rwa [hit, Cursor.atScalars_passFixed fun x hx => hxs x (by simp [hx])] at h

theorem memberInt_atScalars {v : Int} (hxs : ∀ x ∈ Scalar.int v :: xs, x.Fits)
    (hd : d.Reached (some (Cursor.atScalars (.int v :: xs) rest))) (t : Int) :
    (d.memberInt t).1 = toInt32 v ∧
      (d.memberInt t).2.Reached (some (Cursor.atScalars xs rest)) := by
  obtain ⟨herr, hit⟩ := reached_some.mp hd
  constructor
  · rw [memberInt_value hT t herr hit]
    simp [Scalar.head]
  · have h := memberInt_reached hT.moves t (d := d) (by rw [hit]; exact Cursor.atScalars_isFixed v)
    rwa [hit, Cursor.atScalars_passFixed fun x hx => hxs x (by simp [hx])] at h

theorem memberBytes_atScalars {s : Bytes} (hxs : ∀ x ∈ Scalar.string .bytes s :: xs, x.Fits)
    (hd : d.Reached (some (Cursor.atScalars (.string .bytes s :: xs) rest))) (t : Bytes) :
    (d.memberBytes t).1 = s ∧
      (d.memberBytes t).2.Reached (some (Cursor.atScalars xs rest)) := by
  obtain ⟨herr, hit⟩ := reached_some.mp hd
  constructor
  · rw [memberBytes_value hT t herr, hit, Cursor.atScalars_string?]
    rfl
  · have h := memberBytes_reached hT.moves t (d := d) (by rw [hit]; rfl)
    rwa [hit, Cursor.atScalars_pass_string fun x hx => hxs x (by simp [hx])] at h

theorem memberString_atScalars {s : Str} (hxs : ∀ x ∈ Scalar.string .text s :: xs, x.Fits)
    (hd : d.Reached (some (Cursor.atScalars (.string .text s :: xs) rest))) (t : Str) :
    (d.memberString t).1 = cStr s ∧
      (d.memberString t).2.Reached (some (Cursor.atScalars xs rest)) := by
  obtain ⟨herr, hit⟩ := reached_some.mp hd
  constructor
  · exact memberString_value hT t herr (by rw [hit, Cursor.atScalars_string?])
  · have h := memberString_reached hT.moves t (d := d) (by rw [hit]; rfl)
    rwa [hit, Cursor.atScalars_pass_string fun x hx => hxs x (by simp [hx])] at h

end CborDeserializer

variable (d : CborDeserializer T)

/-- The type of a message is read from any array that starts with an `int`. -/
theorem MsgBase.reflect_encodeArray {k : Int} {xs : List Scalar} (hk : IsInt32 k)
    (hxs : ∀ x ∈ xs, x.Fits) (hfit : (encodeArray (.int k :: xs)).length ≤ d.capacity)
    (m₀ : MsgBase) :
    (m₀.reflect (d.fromBytes (encodeArray (.int k :: xs)))).1 = ⟨k⟩ ∧
      (m₀.reflect (d.fromBytes (encodeArray (.int k :: xs)))).2.success = true := by
  have hall : ∀ x ∈ Scalar.int k :: xs, x.Fits := by
    simp only [List.mem_cons]
    rintro x (rfl | hx)
    · exact fits_int hk
    · exact hxs x hx
  obtain ⟨hvalue, hreached⟩ := memberInt_atScalars hT hall (begin_atScalars hT hall d hfit)
    m₀.msgType
  exact ⟨congrArg MsgBase.mk (hvalue.trans (toInt32_of_isInt32 hk)), hreached.success⟩

theorem MsgConnect.reflect_encode {m : MsgConnect}
    (hfits : ∀ x ∈ m.elements, x.Fits) (hfit : (encodeArray m.elements).length ≤ d.capacity)
    (m₀ : MsgConnect) :
    (m₀.reflect (d.fromBytes (encodeArray m.elements))).1 = ⟨cStr m.clientId⟩ ∧
      (m₀.reflect (d.fromBytes (encodeArray m.elements))).2.success = true := by
  have hconst := memberConst_atScalars hT hfits (begin_atScalars hT hfits d hfit)
    MsgType.connect.code
  obtain ⟨hclient, hreached⟩ := memberString_atScalars hT
    (fun x hx => hfits x (List.mem_cons_of_mem _ hx)) hconst m₀.clientId
  exact ⟨congrArg MsgConnect.mk hclient, hreached.success⟩

theorem MsgDisconnect.reflect_encode {m : MsgDisconnect}
    (hfits : ∀ x ∈ m.elements, x.Fits) (hfit : (encodeArray m.elements).length ≤ d.capacity)
    (m₀ : MsgDisconnect) :
    (m₀.reflect (d.fromBytes (encodeArray m.elements))).2.success = true :=
  (memberConst_atScalars hT hfits (begin_atScalars hT hfits d hfit)
    MsgType.disconnect.code).success

omit hT in
theorem MsgPublish.capacity_reflect (m : MsgPublish) : (m.reflect d).2.capacity = d.capacity := by
  simp [reflect, Reflector.begin_, Reflector.end_, Reflector.memberConst, Reflector.memberInt,
    Reflector.memberBytes, CborDeserializer.end_]

theorem MsgPublish.reflect_encode {m : MsgPublish} (hid : IsInt32 m.id)
    (hfits : ∀ x ∈ m.elements, x.Fits) (hfit : (encodeArray m.elements).length ≤ d.capacity)
    (m₀ : MsgPublish) :
    (m₀.reflect (d.fromBytes (encodeArray m.elements))).1 = m ∧
      (m₀.reflect (d.fromBytes (encodeArray m.elements))).2.success = true := by
  have hconst := memberConst_atScalars hT hfits (begin_atScalars hT hfits d hfit)
    MsgType.publish.code
  obtain ⟨hread, hint⟩ := memberInt_atScalars hT
    (fun x hx => hfits x (List.mem_cons_of_mem _ hx)) hconst m₀.id
  obtain ⟨hvalue, hreached⟩ := memberBytes_atScalars hT
    (fun x hx => hfits x (List.mem_cons_of_mem _ (List.mem_cons_of_mem _ hx))) hint m₀.value
  rw [toInt32_of_isInt32 hid] at hread
  exact ⟨congrArg₂ MsgPublish.mk hread hvalue, hreached.success⟩

theorem reflectRegistration_encode (type : MsgType) {id : Int} {topic : Str}
    (hid : IsInt32 id) (hfits : ∀ x ∈ registrationElements type id topic, x.Fits)
    (hfit : (encodeArray (registrationElements type id topic)).length ≤ d.capacity)
    (id₀ : Int) (topic₀ : Str) :
    let r := reflectRegistration type id₀ topic₀
      (d.fromBytes (encodeArray (registrationElements type id topic)))
    r.1 = (id, cStr topic) ∧ r.2.success = true := by
  have hconst := memberConst_atScalars hT hfits (begin_atScalars hT hfits d hfit) type.code
  obtain ⟨hread, hint⟩ := memberInt_atScalars hT
    (fun x hx => hfits x (List.mem_cons_of_mem _ hx)) hconst id₀
  obtain ⟨htopic, hreached⟩ := memberString_atScalars hT
    (fun x hx => hfits x (List.mem_cons_of_mem _ (List.mem_cons_of_mem _ hx))) hint topic₀
  rw [toInt32_of_isInt32 hid] at hread
  exact ⟨congrArg₂ Prod.mk hread htopic, hreached.success⟩

theorem MsgPublisher.reflect_encode {m : MsgPublisher} (hid : IsInt32 m.id)
    (hfits : ∀ x ∈ m.elements, x.Fits) (hfit : (encodeArray m.elements).length ≤ d.capacity)
    (m₀ : MsgPublisher) :
    (m₀.reflect (d.fromBytes (encodeArray m.elements))).1 = ⟨m.id, cStr m.topic⟩ ∧
      (m₀.reflect (d.fromBytes (encodeArray m.elements))).2.success = true := by
  obtain ⟨hmembers, hsuccess⟩ := reflectRegistration_encode hT d .publisher hid hfits hfit
    m₀.id m₀.topic
  exact ⟨congrArg (fun t : Int × Str => MsgPublisher.mk t.1 t.2) hmembers, hsuccess⟩

theorem MsgSubscriber.reflect_encode {m : MsgSubscriber} (hid : IsInt32 m.id)
    (hfits : ∀ x ∈ m.elements, x.Fits) (hfit : (encodeArray m.elements).length ≤ d.capacity)
    (m₀ : MsgSubscriber) :
    (m₀.reflect (d.fromBytes (encodeArray m.elements))).1 = ⟨m.id, cStr m.topic⟩ ∧
      (m₀.reflect (d.fromBytes (encodeArray m.elements))).2.success = true := by
  obtain ⟨hmembers, hsuccess⟩ := reflectRegistration_encode hT d .subscriber hid hfits hfit
    m₀.id m₀.topic
  exact ⟨congrArg (fun t : Int × Str => MsgSubscriber.mk t.1 t.2) hmembers, hsuccess⟩

/-! ## What is cut off is not read -/

/-- The heads of a publish message, in front of the octets of its value. -/
def MsgPublish.heads (m : MsgPublish) : Bytes :=
  Cbor.openArray ([MsgType.publish.code, m.id].map .int) ++ Cbor.encodeHead 2 m.value.length

omit hT in
theorem MsgPublish.encodeArray_elements (m : MsgPublish) :
    encodeArray m.elements = m.heads ++ (m.value ++ [0xFF]) := by
  simp [heads, encodeArray, Cbor.openArray, Cbor.encodeScalars, elements, Cbor.encodeScalar,
    Cbor.encodeString, Cbor.StringKind.major]

omit hT in
/-- One octet opens the array, and each head has nine at most. -/
theorem MsgPublish.length_heads (m : MsgPublish) : m.heads.length ≤ 28 := by
  have htype := Cbor.length_encodeInt_le MsgType.publish.code
  have hid := Cbor.length_encodeInt_le m.id
  have hvalue := Cbor.length_encodeHead_le 2 m.value.length
  simp only [heads, Cbor.openArray, Cbor.encodeScalars, Cbor.encodeScalar, List.map_cons,
    List.map_nil, List.flatMap_cons, List.flatMap_nil, List.append_nil, List.length_append,
    List.length_cons]
  omega

omit hT in
/-- Where the heads fit and the message does not, the end of the array is cut off. -/
theorem MsgPublish.take_encodeArray {m : MsgPublish} {n : Nat} (hroom : 28 ≤ n)
    (hlong : n < (encodeArray m.elements).length) :
    ∃ kept, kept.length ≤ m.value.length ∧ (encodeArray m.elements).take n = m.heads ++ kept := by
  have hheads := m.length_heads
  rw [encodeArray_elements, List.length_append, List.length_append,
    List.length_singleton] at hlong
  refine ⟨(m.value ++ [0xFF]).take (n - m.heads.length), ?_, ?_⟩
  · rw [List.length_take]
    omega
  · rw [encodeArray_elements, List.take_append, List.take_of_length_le (by omega)]

omit hT in
/-- After the heads stands the value, however much of it there is. -/
theorem MsgPublish.afterFixed_heads {m : MsgPublish} (hfits : ∀ x ∈ m.elements, x.Fits)
    (kept : Bytes) :
    Cursor.afterFixed (m.heads ++ kept) 2
      = some (.elem .arrayToBreak (Cbor.StringKind.bytes.head (some m.value.length)) kept) := by
  have hvalue : m.value.length < 2 ^ 64 :=
    hfits (.string .bytes m.value) (by simp [elements])
  have hints : ∀ v ∈ [MsgType.publish.code, m.id], (Scalar.int v).Fits := by
    intro v hv
    apply hfits
    simp only [List.mem_cons, List.not_mem_nil, or_false] at hv
    rcases hv with rfl | rfl <;> simp [elements]
  have hread := Cbor.readHead_encodeHead (show 2 < 8 by decide) hvalue kept
  rw [heads, List.append_assoc]
  exact (Cbor.afterFixed_openArray hints _).trans
    (Cbor.settle_of_readHead hread (by simp) _ _)

/-- A publish message that exceeds a decoder which has room for its heads does not decode. -/
theorem MsgPublish.reflect_truncated {m : MsgPublish} (hfits : ∀ x ∈ m.elements, x.Fits)
    (hroom : 28 ≤ d.capacity) (hlong : d.capacity < (encodeArray m.elements).length)
    (m₀ : MsgPublish) :
    (m₀.reflect (d.fromBytes (encodeArray m.elements))).2.success = false := by
  have hfollows := ((follows_begin hT.moves d (encodeArray m.elements)).memberConst hT.moves
    MsgType.publish.code).memberInt hT.moves m₀.id
  obtain ⟨kept, hkept, htake⟩ := take_encodeArray hroom hlong
  have hlast := afterFixed_heads hfits kept
  rw [← htake] at hlast
  -- the member stands at the value, and no element follows what is kept of it
  have hsucceeds := hfollows.last hlast rfl (memberBytes_reached hT.moves m₀.value)
  rw [Cursor.pass_cut hkept] at hsucceeds
  exact hsucceeds

end

end ZenohProxy
