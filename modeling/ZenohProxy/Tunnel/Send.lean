import ZenohProxy.Serial.Session
import ZenohProxy.Tunnel.Client

/-!
# Sending through the tunnel

`_zn_send_wbuf` of the client puts each slice of a write buffer into a data frame.
`sendFrame` drops what `txd` returns and answers with the length it was given, so the caller
learns nothing of the port; it fails on the empty slices, and on those of which the length is
no positive `int`. `send_truthful_iff` says for which buffers and results of `txd` the answer
is true all the same.
-/

namespace ZenohProxy

def tcpSend : UInt8 := 0x53

/-- `sendFrame`: the frame that is given to `txd`, and the return value. -/
def sendFrame (header : UInt8) (data : Bytes) (length : Nat) : Bytes × Int :=
  (headerFrame header (data.take length), toInt32 length)

/-- The frames given to `txd`, each with what it returned. -/
abbrev SentFrames := List (Bytes × Int)

namespace Client

/-- The `do` loop of `_zn_send_wbuf`, with the returns of `txd` that are left: was the slice
sent? `val` is where the pointer into the slice stands. Without a return it is still waiting
for `txd`. -/
def sendLoop (bs : Bytes) (val : Nat) (n : Int) :
    List Int → Option (Bool × SentFrames × List Int)
  | [] => none
  | rc :: rcs =>
    let (frame, wb) := sendFrame tcpSend (bs.drop val) (n % 2 ^ 32).toNat
    if wb ≤ 0 then some (false, [(frame, rc)], rcs)
    else
      let n := n - wb
      let val := val + (bs.length - n).toNat
      if 0 < n then
        match sendLoop bs val n rcs with
        | none => none
        | some (ok, sent, rcs) => some (ok, (frame, rc) :: sent, rcs)
      else some (true, [(frame, rc)], rcs)

/-- `_zn_send_wbuf`, on the slices of the buffer. -/
def znSendWbuf : List Bytes → List Int → Option (Int × SentFrames)
  | [], _ => some (0, [])
  | bs :: slices, rcs =>
    match sendLoop bs 0 (toInt32 bs.length) rcs with
    | none => none
    | some (false, sent, _) => some (-1, sent)
    | some (true, sent, rcs) =>
      match znSendWbuf slices rcs with
      | none => none
      | some (rc, rest) => some (rc, sent ++ rest)

end Client

/-! ## One frame for each slice -/

/-- The slice is sent: its length is a positive `int`. -/
def Sendable (bs : Bytes) : Prop := 0 < toInt32 bs.length

/-- The frame that is made of a slice. -/
def sliceFrame (bs : Bytes) : Bytes := headerFrame tcpSend (bs.take (bs.length % 2 ^ 32))

instance (bs : Bytes) : Decidable (Sendable bs) := by unfold Sendable; infer_instance

/-- **One pass of the loop sends a slice**, or fails. -/
theorem Client.sendLoop_eq (bs : Bytes) (rc : Int) (rcs : List Int) :
    Client.sendLoop bs 0 (toInt32 bs.length) (rc :: rcs)
      = some (decide (Sendable bs), [(sliceFrame bs, rc)], rcs) := by
  have hlength : (toInt32 bs.length % 2 ^ 32).toNat = bs.length % 2 ^ 32 := by
    rw [emod_toInt32]
    omega
  have hframe : sendFrame tcpSend (bs.drop 0) (toInt32 bs.length % 2 ^ 32).toNat
      = (sliceFrame bs, toInt32 bs.length) := by
    rw [sendFrame, hlength, List.drop_zero, Int.natCast_mod]
    exact congrArg (sliceFrame bs, ·) (toInt32_emod bs.length)
  simp only [Client.sendLoop, hframe, Int.sub_self, Int.lt_irrefl, if_false]
  by_cases hsend : Sendable bs
  · rw [if_neg (Int.not_le.mpr hsend), decide_eq_true hsend]
  · rw [if_pos (Int.not_lt.mp hsend), decide_eq_false hsend]

theorem Client.znSendWbuf_cons (bs : Bytes) (slices : List Bytes) (rc : Int) (rcs : List Int) :
    Client.znSendWbuf (bs :: slices) (rc :: rcs)
      = if Sendable bs then
          (Client.znSendWbuf slices rcs).map fun r => (r.1, (sliceFrame bs, rc) :: r.2)
        else some (-1, [(sliceFrame bs, rc)]) := by
  rw [Client.znSendWbuf, Client.sendLoop_eq]
  by_cases hsend : Sendable bs
  · rw [decide_eq_true hsend, if_pos hsend]
    dsimp only
    cases Client.znSendWbuf slices rcs <;> rfl
  · rw [decide_eq_false hsend, if_neg hsend]

/-- The frames of some slices, with the first returns of `txd`. -/
def sentFrames (slices : List Bytes) (rcs : List Int) : SentFrames :=
  (slices.map sliceFrame).zip rcs

/-- **The whole buffer**: a frame for each slice, up to the first that cannot be sent. -/
theorem Client.znSendWbuf_spec {slices : List Bytes} {rcs : List Int}
    (hrcs : slices.length ≤ rcs.length) :
    (∀ bs ∈ slices, Sendable bs) ∧
        Client.znSendWbuf slices rcs = some (0, sentFrames slices rcs) ∨
      ∃ before bad after, slices = before ++ bad :: after ∧ (∀ bs ∈ before, Sendable bs) ∧
        ¬ Sendable bad ∧
        Client.znSendWbuf slices rcs = some (-1, sentFrames (before ++ [bad]) rcs) := by
  induction slices generalizing rcs with
  | nil => exact .inl ⟨by simp, rfl⟩
  | cons bs slices ih =>
    cases rcs with
    | nil => simp at hrcs
    | cons rc rcs =>
      rw [Client.znSendWbuf_cons]
      by_cases hsend : Sendable bs
      · rw [if_pos hsend]
        rcases ih (Nat.le_of_succ_le_succ hrcs) with ⟨hall, heq⟩ | ⟨before, bad, after, rfl, hall,
          hbad, heq⟩
        · rw [heq]
          exact .inl ⟨List.forall_mem_cons.mpr ⟨hsend, hall⟩, rfl⟩
        · rw [heq]
          exact .inr ⟨bs :: before, bad, after, rfl, List.forall_mem_cons.mpr ⟨hsend, hall⟩, hbad,
            rfl⟩
      · rw [if_neg hsend]
        exact .inr ⟨[], bs, slices, rfl, by simp, hsend, rfl⟩

/-! ## When the answer is true -/

/-- The call returns 0 exactly when `txd` returned 0 for each frame that was built, and the
frames then hold the slices. -/
structure Truthful (slices : List Bytes) (rc : Int) (sent : SentFrames) : Prop where
  reports : rc = 0 ↔ ∀ f ∈ sent, f.2 = 0
  payloads : rc = 0 → ∃ ps : List Bytes,
    sent.map Prod.fst = ps.map (headerFrame tcpSend) ∧ ps.flatten = slices.flatten

/-- Each slice has a length that is a positive `int`, and `txd` takes all frames; or one has
not, and `txd` fails on its frame or one before it. -/
def TruthTold (slices : List Bytes) (rcs : List Int) : Prop :=
  ((∀ bs ∈ slices, 0 < bs.length ∧ bs.length < 2 ^ 31) ∧ ∀ rc ∈ rcs.take slices.length, rc = 0) ∨
    (∃ bs ∈ slices, ¬ Sendable bs) ∧
      ∃ rc ∈ rcs.take ((slices.takeWhile Sendable).length + 1), rc ≠ 0

theorem headerFrame_inj {header : UInt8} {data data' : Bytes}
    (h : headerFrame header data = headerFrame header data') : data = data' := by
  simp only [headerFrame, pppFrame_eq, List.cons.injEq, List.append_cancel_right_eq,
    true_and] at h
  have hdeframe := congrArg pppDeframe h
  rw [pppDeframe_pppBody (by simp), pppDeframe_pppBody (by simp)] at hdeframe
  simpa using hdeframe

theorem forall_sentFrames {slices : List Bytes} {rcs : List Int}
    (hrcs : slices.length ≤ rcs.length) :
    (∀ f ∈ sentFrames slices rcs, f.2 = 0) ↔ ∀ rc ∈ rcs.take slices.length, rc = 0 := by
  have hmap : (sentFrames slices rcs).map Prod.snd = rcs.take slices.length := by
    rw [sentFrames, List.zip_eq_zip_take_min]
    rw [List.map_snd_zip] <;> simp [hrcs]
  rw [← hmap, List.forall_mem_map]

theorem map_fst_sentFrames {slices : List Bytes} {rcs : List Int}
    (hrcs : slices.length ≤ rcs.length) :
    (sentFrames slices rcs).map Prod.fst = slices.map sliceFrame :=
  List.map_fst_zip (by simpa using hrcs)

/-- A slice that is sent with all its octets. -/
theorem sendable_of_lt {bs : Bytes} (hpos : 0 < bs.length) (hlt : bs.length < 2 ^ 31) :
    Sendable bs ∧ bs.take (bs.length % 2 ^ 32) = bs := by
  rw [Sendable, toInt32_of_isInt32 ⟨by omega, by omega⟩, Nat.mod_eq_of_lt (by omega)]
  exact ⟨by omega, List.take_length⟩

theorem Sendable.pos {bs : Bytes} (h : Sendable bs) : 0 < bs.length := by
  rw [Sendable, toInt32_natCast] at h
  split at h <;> omega

/-- A slice that is sent whole has less than `2 ^ 31` octets. -/
theorem Sendable.lt_of_take {bs : Bytes} (h : Sendable bs)
    (hwhole : bs.length ≤ bs.length % 2 ^ 32) : bs.length < 2 ^ 31 := by
  rw [Sendable, toInt32_natCast] at h
  split at h <;> omega

/-- Beginnings of slices that together have all octets are the slices. -/
theorem length_le_of_flatten_eq {slices : List Bytes} {f : Bytes → Nat}
    (h : (slices.map fun bs => bs.take (f bs)).flatten = slices.flatten) :
    ∀ bs ∈ slices, bs.length ≤ f bs := by
  have hsum (slices : List Bytes) :
      (slices.map fun bs => bs.take (f bs)).flatten.length ≤ slices.flatten.length ∧
        (slices.flatten.length ≤ (slices.map fun bs => bs.take (f bs)).flatten.length →
          ∀ bs ∈ slices, bs.length ≤ f bs) := by
    induction slices with
    | nil => simp
    | cons bs slices ih =>
      simp only [List.map_cons, List.flatten_cons, List.length_append, List.length_take,
        List.forall_mem_cons]
      refine ⟨by omega, fun hle => ⟨by omega, ih.2 (by omega)⟩⟩
  exact (hsum slices).2 (le_of_eq (congrArg List.length h).symm)

/-- All slices are sent. -/
theorem truthful_iff_of_sendable {slices : List Bytes} {rcs : List Int}
    (hrcs : slices.length ≤ rcs.length) (hall : ∀ bs ∈ slices, Sendable bs) :
    Truthful slices 0 (sentFrames slices rcs) ↔ TruthTold slices rcs := by
  constructor
  · intro h
    left
    have hzero := (forall_sentFrames hrcs).mp (h.reports.mp rfl)
    obtain ⟨ps, hframes, hpayloads⟩ := h.payloads rfl
    rw [map_fst_sentFrames hrcs] at hframes
    -- the frames are those of what is taken of the slices
    have hps : ps = slices.map fun bs => bs.take (bs.length % 2 ^ 32) := by
      refine (List.map_inj_right (f := headerFrame tcpSend) fun _ _ => headerFrame_inj).mp ?_
      rw [← hframes, List.map_map]
      rfl
    have hwhole := length_le_of_flatten_eq (hps ▸ hpayloads)
    exact ⟨fun bs hbs => ⟨(hall bs hbs).pos, (hall bs hbs).lt_of_take (hwhole bs hbs)⟩, hzero⟩
  · rintro (⟨hlengths, hzero⟩ | ⟨⟨bad, hmem, hbad⟩, -⟩)
    · refine ⟨iff_of_true rfl ((forall_sentFrames hrcs).mpr hzero), fun _ => ⟨slices, ?_, rfl⟩⟩
      rw [map_fst_sentFrames hrcs]
      refine List.map_congr_left fun bs hbs => ?_
      rw [sliceFrame, (sendable_of_lt (hlengths bs hbs).1 (hlengths bs hbs).2).2]
    · exact absurd (hall bad hmem) hbad

/-- The function stops at a slice that is not sent. -/
theorem truthful_iff_of_not_sendable {before after : List Bytes} {bad : Bytes} {rcs : List Int}
    (hrcs : (before ++ bad :: after).length ≤ rcs.length) (hall : ∀ bs ∈ before, Sendable bs)
    (hbad : ¬ Sendable bad) :
    Truthful (before ++ bad :: after) (-1) (sentFrames (before ++ [bad]) rcs) ↔
      TruthTold (before ++ bad :: after) rcs := by
  have hfirst : (before ++ [bad]).length ≤ rcs.length := by
    simp only [List.length_append, List.length_cons, List.length_nil] at hrcs ⊢
    omega
  have hbefore :
      (before ++ bad :: after).takeWhile (fun bs => decide (Sendable bs)) = before := by
    rw [List.takeWhile_append_of_pos (by simpa using hall), List.takeWhile_cons_of_neg (by simpa),
      List.append_nil]
  have hzero := forall_sentFrames hfirst
  rw [List.length_append, List.length_singleton] at hzero
  constructor
  · intro h
    refine .inr ⟨⟨bad, by simp, hbad⟩, ?_⟩
    rw [hbefore]
    by_contra hnone
    push Not at hnone
    exact absurd (h.reports.mpr (hzero.mpr hnone)) (by decide)
  · rintro (⟨hlengths, -⟩ | ⟨-, rc, hmem, hrc⟩)
    · obtain ⟨hpos, hlt⟩ := hlengths bad (by simp)
      exact absurd (sendable_of_lt hpos hlt).1 hbad
    · rw [hbefore] at hmem
      refine ⟨iff_of_false (by decide) fun hall => hrc (hzero.mp hall rc hmem), fun hrc => ?_⟩
      exact absurd hrc (by decide)

/-- **When `_zn_send_wbuf` tells the truth.** -/
theorem send_truthful_iff (slices : List Bytes) (rcs : List Int)
    (hrcs : slices.length ≤ rcs.length) :
    ∃ rc sent, Client.znSendWbuf slices rcs = some (rc, sent) ∧
      (Truthful slices rc sent ↔ TruthTold slices rcs) := by
  rcases Client.znSendWbuf_spec hrcs with ⟨hall, heq⟩ | ⟨before, bad, after, rfl, hall, hbad, heq⟩
  · exact ⟨_, _, heq, truthful_iff_of_sendable hrcs hall⟩
  · exact ⟨_, _, heq, truthful_iff_of_not_sendable hrcs hall hbad⟩

theorem send_truthful_one : [[1]].length ≤ [0].length ∧
    ∃ rc sent, Client.znSendWbuf [[1]] [0] = some (rc, sent) ∧
      (Truthful [[1]] rc sent ↔ TruthTold [[1]] [0]) :=
  ⟨by decide, send_truthful_iff [[1]] [0] (by decide)⟩

/-- The port is not connected, and the call returns 0. Where the slice is empty the port takes
its frame, and the call returns -1. -/
theorem send_untruthful :
    (∃ sent, Client.znSendWbuf [[1]] [enotconn] = some (0, sent) ∧ ¬ Truthful [[1]] 0 sent) ∧
      ∃ sent, Client.znSendWbuf [[]] [0] = some (-1, sent) ∧ ¬ Truthful [[]] (-1) sent := by
  refine ⟨⟨[(headerFrame tcpSend [1], enotconn)], by decide, fun h => ?_⟩,
    ⟨[(headerFrame tcpSend [], 0)], by decide, fun h => ?_⟩⟩
  · exact absurd (h.reports.mp rfl) (by decide)
  · exact absurd (h.reports.mpr (by simp)) (by decide)

end ZenohProxy
