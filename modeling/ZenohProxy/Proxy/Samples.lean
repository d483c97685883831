import ZenohProxy.Proxy.Handlers

/-!
# Samples for the client

Zenoh hands every sample of a subscription to `subscribeHandler`, which calls the callback
of the proxy with the identifier and the data. The callback writes a publish message with
the one `toCbor` and sends it. Nothing bounds the data, and the only answer to data that does
not fit is a failing assertion: `sample_handled_iff`.
-/

namespace ZenohProxy

open Cbor (encodeArray)

/-- What becomes of a sample. -/
inductive SampleOutcome where
  | sent (bs : Bytes)
  /-- Nothing is sent and an error is reported: no path of the callback ends so. -/
  | reported
  /-- An assertion fails. -/
  | aborted
  /-- `toBytes` reads beyond the buffer. -/
  | overrun
  deriving DecidableEq

/-- The callback of a subscription, up to `toSerialMsg`. -/
def sampleOutcome {T : TinyCbor} (toCbor : CborSerializer T) (id : Int) (data : Bytes) :
    SampleOutcome :=
  let (_, toCbor) := MsgPublish.reflect ⟨id, data⟩ toCbor
  if toCbor.assertFailed then .aborted
  else
    match toCbor.toBytes with
    | some bs => .sent bs
    | none => .overrun

/-- A sample is reported as an error, or sent so that it decodes to what it was. -/
def SampleHandled {T : TinyCbor} (toCbor : CborSerializer T) (id : Int) (data : Bytes) : Prop :=
  sampleOutcome toCbor id data = .reported ∨
    ∃ bs, sampleOutcome toCbor id data = .sent bs ∧
      ∀ (d : CborDeserializer T) (m : MsgPublish), d.capacity = 1024 →
        (m.reflect (d.fromBytes bs)).1 = ⟨id, data⟩ ∧
          (m.reflect (d.fromBytes bs)).2.success = true

section

variable {T : TinyCbor} (hT : T.Documented) {toCbor : CborSerializer T} {id : Int}
  {data : Bytes}
include hT

theorem sampleOutcome_of_fits (hassert : toCbor.assertFailed = false)
    (hfit : (encodeArray (MsgPublish.elements ⟨id, data⟩)).length ≤ toCbor.capacity) :
    sampleOutcome toCbor id data = .sent (encodeArray (MsgPublish.elements ⟨id, data⟩)) := by
  have hdone := MsgPublish.reflect_finished hT toCbor ⟨id, data⟩
  have hasserts := hdone.asserts
  rw [hassert, Bool.false_or, decide_eq_false (Nat.not_lt.mpr hfit)] at hasserts
  simp [sampleOutcome, hasserts, hdone.toBytes hfit]

theorem sampleOutcome_of_exceeds
    (hlong : toCbor.capacity < (encodeArray (MsgPublish.elements ⟨id, data⟩)).length) :
    sampleOutcome toCbor id data = .aborted := by
  have hasserts := (MsgPublish.reflect_finished hT toCbor ⟨id, data⟩).asserts
  rw [decide_eq_true hlong, Bool.or_true] at hasserts
  simp [sampleOutcome, hasserts]

end

/-- **Exactly the samples whose message fits the buffer are handled.** Any longer one ends
in a failing assertion. -/
theorem sample_handled_iff {T : TinyCbor} (hT : T.Documented) (toCbor : CborSerializer T)
    (hcapacity : toCbor.capacity = 1024) (hassert : toCbor.assertFailed = false) (id : Int)
    (hid : IsInt32 id) (data : Bytes) :
    SampleHandled toCbor id data ↔
      (encodeArray (MsgPublish.elements ⟨id, data⟩)).length ≤ 1024 := by
  constructor
  · intro hhandled
    by_contra hlong
    -- the assertion in `member(bytes &)` or in `end` fails, and nothing is sent
    have haborted := sampleOutcome_of_exceeds hT (lt_of_eq_of_lt hcapacity
      (Nat.lt_of_not_le hlong))
    rcases hhandled with h | ⟨bs, h, -⟩ <;> rw [haborted] at h <;> cases h
  · intro hfit
    have hfits : ∀ x ∈ MsgPublish.elements ⟨id, data⟩, x.Fits :=
      fits_elements (MsgType.isInt32_code .publish) hid hfit
    refine .inr ⟨_, sampleOutcome_of_fits hT hassert (by rw [hcapacity]; exact hfit), ?_⟩
    intro d m hd
    exact MsgPublish.reflect_encode hT d hid hfits (by rw [hd]; exact hfit) m

/-- A sample of three octets. -/
theorem sample_handled_short :
    SampleHandled (Proxy.start lenient).toCbor 7 [1, 2, 3] ↔
      (encodeArray (MsgPublish.elements ⟨7, [1, 2, 3]⟩)).length ≤ 1024 :=
  sample_handled_iff (TinyCbor.reference_documented _) (Proxy.start lenient).toCbor rfl rfl 7
    (by decide) [1, 2, 3]

/-- A sample of 1100 octets makes an assertion fail. -/
theorem sample_aborted :
    sampleOutcome (Proxy.start lenient).toCbor 7 (List.replicate 1100 0) = .aborted ∧
      ¬ SampleHandled (Proxy.start lenient).toCbor 7 (List.replicate 1100 0) := by
  have hT := TinyCbor.reference_documented (.noError, .invalid)
  have hlong : 1024 < (encodeArray (MsgPublish.elements ⟨7, List.replicate 1100 0⟩)).length := by
    decide +kernel
  have haborted : sampleOutcome (Proxy.start lenient).toCbor 7 (List.replicate 1100 0) = .aborted :=
    sampleOutcome_of_exceeds hT hlong
  refine ⟨haborted, ?_⟩
  rintro (h | ⟨bs, h, -⟩) <;> rw [haborted] at h <;> cases h

end ZenohProxy
