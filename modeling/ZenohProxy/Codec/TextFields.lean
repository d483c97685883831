import ZenohProxy.Codec.Complete
import ZenohProxy.Codec.RoundTrip

/-!
# Texts that come back

`CborSerializer::member(string&)` writes `data()` and `size()`, while its counterpart assigns
the copy to the string as a C string, which ends at the first zero. `text_round_trips_iff`
says of the three messages with a text that they come back exactly when there is none.
-/

namespace ZenohProxy

open Cbor (encodeArray)

/-- `m` is what comes out when its own encoding is decoded into `m₀`. -/
def RoundTrips {T : TinyCbor} {M : Type} (write : M → CborSerializer T → M × CborSerializer T)
    (read : M → CborDeserializer T → M × CborDeserializer T) (s : CborSerializer T)
    (d : CborDeserializer T) (m₀ m : M) : Prop :=
  ∃ bs, (write m s).2.toBytes = some bs ∧ (read m₀ (d.fromBytes bs)).2.success = true
    ∧ (read m₀ (d.fromBytes bs)).1 = m

/-- An encoding that fits both ends. -/
def FitsBoth {T : TinyCbor} (s : CborSerializer T) (d : CborDeserializer T)
    (xs : List Cbor.Scalar) : Prop :=
  (encodeArray xs).length ≤ s.capacity ∧ (encodeArray xs).length ≤ d.capacity

theorem cStr_eq_self_iff (s : Str) : cStr s = s ↔ 0 ∉ s :=
  ⟨fun h => h ▸ cStr_no_nul s, cStr_of_no_nul⟩

section

variable {T : TinyCbor} {M : Type} {write : M → CborSerializer T → M × CborSerializer T}
  {read : M → CborDeserializer T → M × CborDeserializer T} {s : CborSerializer T}
  {d : CborDeserializer T} {m₀ m : M} {bs : Bytes}

/-- What is decoded decides, once it is known what was written and that it decodes. -/
theorem roundTrips_iff {m' : M} (hwrite : (write m s).2.toBytes = some bs)
    (hread : (read m₀ (d.fromBytes bs)).1 = m' ∧ (read m₀ (d.fromBytes bs)).2.success = true) :
    RoundTrips write read s d m₀ m ↔ m' = m := by
  constructor
  · rintro ⟨bs', hwrite', -, heq⟩
    rw [hwrite] at hwrite'
    obtain rfl := Option.some.inj hwrite'
    exact hread.1.symm.trans heq
  · exact fun heq => ⟨bs, hwrite, hread.2, hread.1.trans heq⟩

end

section

variable {T : TinyCbor} (hT : T.Documented) (s : CborSerializer T) (d : CborDeserializer T)
include hT

theorem MsgConnect.roundTrips_iff (m₀ m : MsgConnect) (hsize : m.clientId.length < 2 ^ 64)
    (hfit : FitsBoth s d m.elements) :
    RoundTrips MsgConnect.reflect MsgConnect.reflect s d m₀ m ↔ 0 ∉ m.clientId := by
  have hfits : ∀ x ∈ m.elements, x.Fits := by
    simp only [elements, List.mem_cons, List.not_mem_nil, or_false]
    rintro x (rfl | rfl)
    · exact fits_int (MsgType.isInt32_code .connect)
    · exact hsize
  have hwrite := (reflect_finished hT s m).toBytes hfit.1
  rw [ZenohProxy.roundTrips_iff hwrite (reflect_encode hT d hfits hfit.2 m₀), ← cStr_eq_self_iff]
  exact ⟨congrArg MsgConnect.clientId, fun h => by rw [h]⟩

omit hT in
theorem fits_registration (type : MsgType) {id : Int} {topic : Str} (hid : IsInt32 id)
    (hsize : topic.length < 2 ^ 64) : ∀ x ∈ registrationElements type id topic, x.Fits := by
  simp only [registrationElements, List.mem_cons, List.not_mem_nil, or_false]
  rintro x (rfl | rfl | rfl)
  · exact fits_int (MsgType.isInt32_code type)
  · exact fits_int hid
  · exact hsize

theorem MsgPublisher.roundTrips_iff (m₀ m : MsgPublisher) (hid : IsInt32 m.id)
    (hsize : m.topic.length < 2 ^ 64) (hfit : FitsBoth s d m.elements) :
    RoundTrips MsgPublisher.reflect MsgPublisher.reflect s d m₀ m ↔ 0 ∉ m.topic := by
  have hfits := fits_registration .publisher hid hsize
  have hwrite := (reflect_finished hT s m).toBytes hfit.1
  rw [ZenohProxy.roundTrips_iff hwrite (reflect_encode hT d hid hfits hfit.2 m₀),
    ← cStr_eq_self_iff]
  exact ⟨congrArg MsgPublisher.topic, fun h => by rw [h]⟩

theorem MsgSubscriber.roundTrips_iff (m₀ m : MsgSubscriber) (hid : IsInt32 m.id)
    (hsize : m.topic.length < 2 ^ 64) (hfit : FitsBoth s d m.elements) :
    RoundTrips MsgSubscriber.reflect MsgSubscriber.reflect s d m₀ m ↔ 0 ∉ m.topic := by
  have hfits := fits_registration .subscriber hid hsize
  have hwrite := (reflect_finished hT s m).toBytes hfit.1
  rw [ZenohProxy.roundTrips_iff hwrite (reflect_encode hT d hid hfits hfit.2 m₀),
    ← cStr_eq_self_iff]
  exact ⟨congrArg MsgSubscriber.topic, fun h => by rw [h]⟩

/-- **When texts round-trip**: whatever held serializer, deserializer and the message decoded
into, exactly the texts without a zero come back. -/
theorem text_round_trips_iff :
    (∀ m₀ m : MsgConnect, m.clientId.length < 2 ^ 64 → FitsBoth s d m.elements →
        (RoundTrips MsgConnect.reflect MsgConnect.reflect s d m₀ m ↔ 0 ∉ m.clientId))
      ∧ (∀ m₀ m : MsgPublisher, IsInt32 m.id → m.topic.length < 2 ^ 64 →
        FitsBoth s d m.elements →
        (RoundTrips MsgPublisher.reflect MsgPublisher.reflect s d m₀ m ↔ 0 ∉ m.topic))
      ∧ (∀ m₀ m : MsgSubscriber, IsInt32 m.id → m.topic.length < 2 ^ 64 →
        FitsBoth s d m.elements →
        (RoundTrips MsgSubscriber.reflect MsgSubscriber.reflect s d m₀ m ↔ 0 ∉ m.topic)) := by
  refine ⟨fun m₀ m hsize hfit => ?_, fun m₀ m hid hsize hfit => ?_,
    fun m₀ m hid hsize hfit => ?_⟩
  · exact m₀.roundTrips_iff hT s d m hsize hfit
  · exact m₀.roundTrips_iff hT s d m hid hsize hfit
  · exact m₀.roundTrips_iff hT s d m hid hsize hfit

end

/-- The topic `src/+` comes back. -/
theorem text_round_trips_topic :
    RoundTrips MsgSubscriber.reflect MsgSubscriber.reflect (CborSerializer.new lenient 100)
      (CborDeserializer.new lenient 100) ⟨0, []⟩ ⟨7, str "src/+"⟩ :=
  ((text_round_trips_iff (TinyCbor.reference_documented _) (CborSerializer.new lenient 100)
    (CborDeserializer.new lenient 100)).2.2 ⟨0, []⟩ ⟨7, str "src/+"⟩ (by decide) (by decide)
    ⟨by decide, by decide⟩).mpr (by decide)

/-- Of the topic `a\0b` only `a` comes back. -/
theorem text_not_round_trips :
    ¬ ∀ (T : TinyCbor), T.Documented → ∀ (s : CborSerializer T) (d : CborDeserializer T)
      (m₀ m : MsgSubscriber), IsInt32 m.id → m.topic.length < 2 ^ 64 →
        FitsBoth s d m.elements →
          RoundTrips MsgSubscriber.reflect MsgSubscriber.reflect s d m₀ m := by
  intro h
  have hT : lenient.Documented := TinyCbor.reference_documented _
  have hfit : FitsBoth (CborSerializer.new lenient 100) (CborDeserializer.new lenient 100)
      (MsgSubscriber.mk 7 [0x61, 0, 0x62]).elements := ⟨by decide, by decide⟩
  have hback := h lenient hT (CborSerializer.new lenient 100) (CborDeserializer.new lenient 100)
    ⟨0, []⟩ ⟨7, [0x61, 0, 0x62]⟩ (by decide) (by decide) hfit
  rw [MsgSubscriber.roundTrips_iff hT _ _ _ _ (by decide) (by decide) hfit] at hback
  exact hback (by decide)

end ZenohProxy
