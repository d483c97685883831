import Mathlib.Algebra.Group.Nat.Even
import ZenohProxy.Ppp.Acceptance

/-!
# What the frame check detects

The FCS-16 of PPP as it is defined, bit by bit, and the errors it catches.
`Fcs.result_eq_fcs16` is the equivalence of the table-driven code with that definition. Two
messages the deframer accepts leave the same register, so their difference leaves a clear
register clear, and `accepted_errors` is what `Lib/CrcBits.lean` says of such differences:
they are no odd number of bits and no burst of sixteen.
-/

namespace ZenohProxy

open Crc

/-- A message as it is clocked out, the least significant bit of each byte first. -/
def messageBits (bs : Bytes) : List Bool := bs.flatMap fun b => lsbFirst b.toBitVec

/-- One bit of the FCS-16: the register moves down, and the reflected polynomial is added
when the bit that falls out differs from the message bit. -/
def fcs16Bit (r : BitVec 16) (b : Bool) : BitVec 16 :=
  if r.getLsbD 0 ^^ b then (r >>> 1) ^^^ 0x8408 else r >>> 1

/-- The FCS-16 of a message, bit by bit. -/
def fcs16 (bs : Bytes) : BitVec 16 := ~~~((messageBits bs).foldl fcs16Bit 0xFFFF)

theorem messageBits_cons (b : UInt8) (bs : Bytes) :
    messageBits (b :: bs) = lsbFirst b.toBitVec ++ messageBits bs := List.flatMap_cons

theorem fcs16Bit_eq_feedBit (r : BitVec 16) (b : Bool) : fcs16Bit r b = feedBit fcsPoly r b :=
  (feedBit_eq fcsPoly r b (by decide)).symm

/-! ## The table-driven register -/

/-- The register after a message is the shift register fed with its bits. -/
theorem Fcs.writes_eq_feed (f : Fcs) (bs : Bytes) :
    (f.writes bs).fcs = feed fcsPoly f.fcs (messageBits bs) := by
  induction bs generalizing f with
  | nil => rfl
  | cons b bs ih =>
    show ((f.write b).writes bs).fcs = _
    rw [ih, write_eq_byteStep, messageBits_cons, feed_append, feed_lsbFirst _ _ _ (by decide)]

/-- **The table-driven check sequence is the bitwise one.** -/
theorem Fcs.result_eq_fcs16 (bs : Bytes) : (Fcs.init.writes bs).result = fcs16 bs := by
  have hfold : ∀ (xs : List Bool) (r : BitVec 16),
      xs.foldl fcs16Bit r = feed fcsPoly r xs := by
    intro xs
    induction xs with
    | nil => exact fun _ => rfl
    | cons b xs ih =>
      intro r
      rw [List.foldl_cons, ih, fcs16Bit_eq_feedBit]
      rfl
  rw [Fcs.result, writes_eq_feed, fcs16, hfold]
  rfl

/-! ## Messages that both pass -/

/-- The bits in which two messages differ. -/
def bitErrors (a b : Bytes) : List Bool := errors (messageBits a) (messageBits b)

theorem length_messageBits (bs : Bytes) : (messageBits bs).length = 8 * bs.length := by
  induction bs with
  | nil => rfl
  | cons b bs ih =>
    rw [messageBits_cons, List.length_append, ih, length_lsbFirst, List.length_cons]
    omega

theorem messageBits_injective {a b : Bytes} (hlen : a.length = b.length)
    (h : messageBits a = messageBits b) : a = b := by
  induction a generalizing b with
  | nil => exact (List.length_eq_zero_iff.mp hlen.symm).symm
  | cons x a ih =>
    cases b with
    | nil => cases hlen
    | cons y b =>
      rw [messageBits_cons, messageBits_cons] at h
      have hlow : (lsbFirst x.toBitVec).length = (lsbFirst y.toBitVec).length := by
        rw [length_lsbFirst, length_lsbFirst]
      obtain ⟨hhead, htail⟩ := List.append_inj h hlow
      rw [UInt8.toBitVec_inj.mp (lsbFirst_injective hhead), ih (Nat.succ.inj hlen) htail]

/-- The register after an accepted message is always the same. -/
theorem fcs_of_accepted {input p : Bytes} (h : pppDeframe input = (true, p)) :
    (Fcs.init.writes (pppContent input)).result = fcsGood := by
  obtain ⟨hflag, hlen⟩ := pppDeframe_accepts h
  rw [pppDeframe_content hlen hflag, Prod.mk.injEq, Bool.and_eq_true, beq_iff_eq] at h
  exact h.1.2

/-- **What the check sequence detects**: two accepted inputs whose contents have one length
and are not the same differ in an even number of bits, which no sixteen consecutive bits
contain. -/
theorem accepted_errors {a b p q : Bytes} (ha : pppDeframe a = (true, p))
    (hb : pppDeframe b = (true, q)) (hlen : (pppContent a).length = (pppContent b).length)
    (hne : pppContent a ≠ pppContent b) :
    Even ((bitErrors (pppContent a) (pppContent b)).count true)
      ∧ ¬ ∃ k : Nat, ∀ i : Nat, (bitErrors (pppContent a) (pppContent b))[i]? = some true
          → k ≤ i ∧ i < k + 16 := by
  -- both registers end alike, so the errors leave a clear register clear
  have hbits : (messageBits (pppContent a)).length = (messageBits (pppContent b)).length := by
    rw [length_messageBits, length_messageBits, hlen]
  have hregs := (fcs_of_accepted ha).trans (fcs_of_accepted hb).symm
  rw [Fcs.result, Fcs.result, Fcs.writes_eq_feed, Fcs.writes_eq_feed] at hregs
  have hzero := feed_errors fcsPoly _ hbits (BitVec.not_inj.mp hregs)
  constructor
  · rw [Nat.even_iff]
    exact even_of_feed_zero (by decide) hzero
  · rintro ⟨k, hin⟩
    apply hne
    apply messageBits_injective hlen
    exact eq_of_no_errors hbits (burst_detected fcsPoly_msb hin hzero)

/-- The bodies of the frames of two one-byte payloads. -/
theorem accepted_errors_bodies :
    pppContent (pppBody [1]) ≠ pppContent (pppBody [2])
      ∧ Even ((bitErrors (pppContent (pppBody [1])) (pppContent (pppBody [2]))).count true) :=
  have hne : pppContent (pppBody [1]) ≠ pppContent (pppBody [2]) := by decide +kernel
  ⟨hne, (accepted_errors (pppDeframe_pppBody (List.cons_ne_nil 1 []))
    (pppDeframe_pppBody (List.cons_ne_nil 2 [])) (by decide +kernel) hne).1⟩

end ZenohProxy
