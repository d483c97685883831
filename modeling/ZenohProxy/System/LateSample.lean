import ZenohProxy.Ppp.LateFrames
import ZenohProxy.System.Samples

/-!
# A sample that passes for a message

Zenoh decides what is in a sample, and the proxy puts it on the line as it is. When the line
stalls inside its frame, the end of it may be taken for a frame of its own.

`late_sample_smuggles`: for any message there is a sample that, with one stall of the line,
comes to the micro-controller as that message.
-/

namespace ZenohProxy

open Cbor (encodeArray encodeScalars Scalar)

/-- What stands before the octets of a sample. -/
def sampleHead (id : Int) (length : Nat) : Bytes :=
  0x9F :: (Cbor.encodeInt MsgType.publish.code ++ Cbor.encodeInt id ++ Cbor.encodeHead 2 length)

theorem sampleFrame_eq (id : Int) (data : Bytes) :
    sampleFrame id data = sampleHead id data.length ++ data ++ [0xFF] := by
  simp [sampleFrame, sampleHead, encodeArray, encodeScalars, MsgPublish.elements,
    Cbor.encodeScalar, Cbor.encodeString, Cbor.StringKind.major]

theorem length_sampleFrame_le (id : Int) (data : Bytes) :
    (sampleFrame id data).length ≤ data.length + 29 := by
  have htype := Cbor.length_encodeInt_le MsgType.publish.code
  have hid := Cbor.length_encodeInt_le id
  have hdata := Cbor.length_encodeHead_le 2 data.length
  rw [sampleFrame_eq, sampleHead]
  simp only [List.length_append, List.length_cons, List.length_nil]
  omega

/-- The octets of a sample whose frame can give a message. -/
theorem exists_sample (id : Int) (xs : List Scalar) :
    ∃ data : Bytes, data.length = (encodeArray xs).length + 1 ∧
      EndsAs (sampleFrame id data) (encodeArray xs) := by
  let inner : Bytes := 0x9F :: encodeScalars xs
  have hclosed : encodeArray xs = inner ++ [0xFF] := rfl
  obtain ⟨w, hlen, hends⟩ := exists_endsAs (sampleHead id (inner.length + 2))
    (e := encodeArray xs) (List.cons_ne_nil _ _)
  have hdata : (w ++ inner).length = inner.length + 2 := by
    rw [List.length_append, hlen, Nat.add_comm]
  refine ⟨w ++ inner, ?_, ?_⟩
  · rw [hdata, hclosed, List.length_append]
    rfl
  · -- the message is closed by what closes the frame
    rw [sampleFrame_eq, hdata]
    rw [hclosed] at hends ⊢
    simpa [List.append_assoc] using hends

/-- **Any message can be smuggled in a sample.** For every subscription and every message there
are octets that zenoh may deliver, of which the proxy makes a frame. And there are chunks and
a clock that only goes on with which that frame, and nothing else on the line, gives every
receiver that keeps nothing that one message. -/
theorem late_sample_smuggles {T : TinyCbor} (hT : T.Documented) (id : Int) (xs : List Scalar)
    (hfit : (encodeArray xs).length + 30 ≤ 1024) :
    ∃ data : Bytes,
      (∀ p : Proxy T, p.Ready → p.toCbor.assertFailed = false →
        toSerial (p.onSample id data).2 = [some (sampleFrame id data)]) ∧
      ∃ cs : List Chunk, (readings cs).Pairwise (· ≤ ·) ∧ (∀ c ∈ cs, c.bytes ≠ []) ∧
        (stream cs).map Prod.fst = pppFrame (sampleFrame id data) ∧
        ∀ rx : FrameRx, rx.inputFrame = [] →
          emitted (Mealy.run BytesToFrame.handleRxd rx cs).2 = [encodeArray xs] := by
  obtain ⟨data, hlen, hends⟩ := exists_sample id xs
  obtain ⟨cs, hclock, hchunks, hstream, hemitted⟩ := exists_late_chunks hends
  refine ⟨data, fun p hp hassert => ?_, cs, hclock, hchunks, hstream,
    fun rx hrx => hemitted _ rx hrx⟩
  have hframe : (sampleFrame id data).length ≤ 1024 := by
    have hbound := length_sampleFrame_le id data
    omega
  obtain ⟨-, hanswers⟩ := Proxy.onSample_answers hT hp hassert id data
  rw [sampleFrame] at hframe
  rw [if_pos hframe] at hanswers
  obtain ⟨_, hmade, rfl⟩ := hanswers.made _ (List.mem_singleton_self _)
  exact congrArg (fun msg => [msg]) hmade

/-- A sample in which the reply to a connect is hidden: nobody need have connected. -/
theorem late_sample_smuggles_reply : ∃ data : Bytes,
    (∀ p : Proxy lenient, p.Ready → p.toCbor.assertFailed = false →
      toSerial (p.onSample 7 data).2 = [some (sampleFrame 7 data)]) ∧
    ∃ cs : List Chunk, (readings cs).Pairwise (· ≤ ·) ∧ (∀ c ∈ cs, c.bytes ≠ []) ∧
      (stream cs).map Prod.fst = pppFrame (sampleFrame 7 data) ∧
      ∀ rx : FrameRx, rx.inputFrame = [] →
        emitted (Mealy.run BytesToFrame.handleRxd rx cs).2 = [connectReplyFrame] :=
  late_sample_smuggles (TinyCbor.reference_documented _) 7 msgConnectReply.elements (by decide)

end ZenohProxy
