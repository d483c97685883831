import ZenohProxy.Serial.Send

/-!
# Resuming a partial write

The loop of `txd` in the integers of the source: `write` answers with an `ssize_t`, which
the loop keeps in an `int` and compares with a `size_t`. `body_took` and `body_failed` say
what the comparisons come to for the answers that `write` can give, and `body_refines` that
this is what `Serial.afterWrite` does, on which the account of the line rests.

`txd_resumes` is about the whole call: the bytes taken are the buffer up to some place, each
once, and the loop goes on after a short write exactly where it stopped.
-/

namespace ZenohProxy

/-- What `write` returns, and `errno` after it. -/
structure WriteAnswer where
  ret : Int64
  errno : Int32
  deriving DecidableEq

/-- The locals of the loop: `buf` as an offset in the buffer, and `len`. -/
structure TxdLocals where
  buf : Nat
  len : UInt64
  deriving DecidableEq

/-- How a pass through the loop ends. -/
inductive TxdPass where
  | again (l : TxdLocals)
  | leaves
  | fails (errno : Int32)
  deriving DecidableEq

def eagainCode : Int32 := 11
def ewouldblockCode : Int32 := 11
def enotconnCode : Int32 := 107

/-- An `int` where a `size_t` is wanted. -/
def sizeOfInt (rc : Int32) : UInt64 := rc.toInt64.toUInt64

namespace Serial

/-- The body of the loop after `int rc = write(_fd, buf, len)`. -/
def txdBody (l : TxdLocals) (a : WriteAnswer) : TxdPass :=
  let rc := a.ret.toInt32
  if sizeOfInt rc = l.len then .leaves
  else if 0 ≤ rc then .again ⟨l.buf + rc.toNatClampNeg, l.len - sizeOfInt rc⟩
  else if a.errno = eagainCode ∨ a.errno = ewouldblockCode then .again l
  else .fails a.errno

/-- The calls of `write` with their answers, and what `txd` returns; nothing while it is
still in the loop. -/
def txdWrites (l : TxdLocals) :
    List WriteAnswer → List (TxdLocals × WriteAnswer) × Option Int32
  | [] => ([], if l.len = 0 then some 0 else none)
  | a :: answers =>
    if l.len = 0 then ([], some 0)
    else
      match txdBody l a with
      | .again l' =>
        let r := txdWrites l' answers
        ((l, a) :: r.1, r.2)
      | .leaves => ([(l, a)], some 0)
      | .fails errno => ([(l, a)], some errno)

/-- `txd(buffer)`, with what `write` answers to it. -/
def txdCall (s : Serial) (buffer : Bytes) (answers : List WriteAnswer) :
    List (TxdLocals × WriteAnswer) × Option Int32 :=
  if s.connected then txdWrites ⟨0, UInt64.ofNat buffer.length⟩ answers
  else ([], some enotconnCode)

end Serial

/-! ## What `write` promises -/

/-- The most that one call transfers. -/
def writeMax : Nat := 0x7FFFF000

/-- The answers `write` can give to a request of `len` bytes: a count, or -1 with an error
number, which is never zero. -/
inductive WriteAnswer.Answers (len : UInt64) : WriteAnswer → Prop where
  | took (n : Nat) (errno : Int32) (hlen : n ≤ len.toNat) (hmax : n ≤ writeMax) :
      Answers len ⟨Int64.ofNat n, errno⟩
  | failed (errno : Int32) (hpos : 0 < errno) : Answers len ⟨-1, errno⟩

/-- The bytes the tty took. -/
def taken (buffer : Bytes) (w : TxdLocals × WriteAnswer) : Bytes :=
  (buffer.drop w.1.buf).take w.2.ret.toNatClampNeg

/-- All bytes taken, in the order of the calls. -/
def takenAll (buffer : Bytes) (ws : List (TxdLocals × WriteAnswer)) : Bytes :=
  ws.flatMap (taken buffer)

/-- An error other than the request to try again. -/
def WriteAnswer.Hard (a : WriteAnswer) : Prop :=
  a.ret = -1 ∧ a.errno ≠ eagainCode ∧ a.errno ≠ ewouldblockCode

/-! ## One pass -/

namespace Serial

theorem toNat_count {n : Nat} (hmax : n ≤ writeMax) : (UInt64.ofNat n).toNat = n :=
  UInt64.toNat_ofNat_of_lt' (Nat.lt_of_le_of_lt hmax (by decide))

theorem sizeOfInt_ofNat {n : Nat} (hn : n < 2 ^ 31) :
    sizeOfInt (Int32.ofNat n) = UInt64.ofNat n := by
  have hsign : (Int32.ofNat n).toInt64 = Int64.ofNat n := by
    apply Int64.toInt.inj
    rw [Int32.toInt_toInt64, Int32.toInt_ofNat_of_lt hn, Int64.toInt_ofNat_of_lt (by omega)]
  rw [sizeOfInt, hsign]
  rfl

/-- **A count** fits the `int`, and the comparison with the `size_t` is that of numbers. -/
theorem body_took {l : TxdLocals} {n : Nat} (errno : Int32) (hmax : n ≤ writeMax) :
    txdBody l ⟨Int64.ofNat n, errno⟩
      = if n = l.len.toNat then .leaves else .again ⟨l.buf + n, l.len - UInt64.ofNat n⟩ := by
  have hn : n < 2 ^ 31 := Nat.lt_of_le_of_lt hmax (by decide)
  have hpos : (0 : Int32) ≤ Int32.ofNat n := by
    rw [Int32.le_iff_toInt_le, Int32.toInt_ofNat_of_lt hn]
    exact Int.natCast_nonneg n
  have heq : UInt64.ofNat n = l.len ↔ n = l.len.toNat := by
    rw [← UInt64.toNat_inj, toNat_count hmax]
  unfold txdBody
  simp only [Int64.toInt32_ofNat', sizeOfInt_ofNat hn, heq, hpos, if_true,
    Int32.toNatClampNeg_ofNat_of_lt hn]

/-- **An error**: -1 is no length a vector can have. -/
theorem body_failed {l : TxdLocals} (errno : Int32) (hlen : l.len.toNat < 2 ^ 63) :
    txdBody l ⟨-1, errno⟩
      = if errno = eagainCode ∨ errno = ewouldblockCode then .again l else .fails errno := by
  have hne : ¬ sizeOfInt (Int64.toInt32 (-1)) = l.len := by
    intro heq
    have hmax : (sizeOfInt (Int64.toInt32 (-1))).toNat = 2 ^ 64 - 1 := by decide
    rw [heq] at hmax
    omega
  have hneg : ¬ (0 : Int32) ≤ Int64.toInt32 (-1) := by decide
  unfold txdBody
  simp only [if_neg hne, if_neg hneg]

end Serial

/-- The offset and the length name the end of the buffer. -/
def TxdLocals.Within (buffer : Bytes) (l : TxdLocals) : Prop :=
  l.buf + l.len.toNat = buffer.length

section

variable {buffer : Bytes} {l : TxdLocals} {a : WriteAnswer}

theorem TxdLocals.Within.drop_eq_nil (h : l.Within buffer) (hlen : l.len = 0) :
    buffer.drop l.buf = [] := by
  apply List.drop_eq_nil_of_le
  have hzero : l.len.toNat = 0 := by rw [hlen]; rfl
  unfold TxdLocals.Within at h
  omega

theorem TxdLocals.Within.length_drop (h : l.Within buffer) :
    (buffer.drop l.buf).length = l.len.toNat := by
  unfold TxdLocals.Within at h
  rw [List.length_drop]
  omega

theorem taken_took {n : Nat} (errno : Int32) (hmax : n ≤ writeMax) :
    taken buffer (l, ⟨Int64.ofNat n, errno⟩) = (buffer.drop l.buf).take n := by
  have hn : n < 2 ^ 63 := Nat.lt_of_le_of_lt hmax (by decide)
  rw [taken, Int64.toNatClampNeg_ofNat_of_lt hn]

theorem taken_failed (errno : Int32) : taken buffer (l, ⟨-1, errno⟩) = [] := by
  have hnone : Int64.toNatClampNeg (-1) = 0 := by decide
  rw [taken, hnone, List.take_zero]

theorem ofNat_ne_minus_one {n : Nat} (hmax : n ≤ writeMax) : Int64.ofNat n ≠ -1 := by
  intro hret
  have hn : n < 2 ^ 63 := Nat.lt_of_le_of_lt hmax (by decide)
  have hint := congrArg Int64.toInt hret
  rw [Int64.toInt_ofNat_of_lt hn] at hint
  have hminus : Int64.toInt (-1) = -1 := by decide
  omega

theorem not_hard_took {n : Nat} (errno : Int32) (hmax : n ≤ writeMax) :
    ¬ (WriteAnswer.mk (Int64.ofNat n) errno).Hard :=
  fun hhard => ofNat_ne_minus_one hmax hhard.1

/-- What a pass leaves to be written is what was left without what the tty took. -/
theorem pass_spec (hsize : buffer.length < 2 ^ 63) (hwithin : l.Within buffer)
    (hanswers : a.Answers l.len) :
    match Serial.txdBody l a with
    | .again l' => l'.Within buffer ∧ taken buffer (l, a) ++ buffer.drop l'.buf = buffer.drop l.buf
        ∧ ¬ a.Hard
    | .leaves => taken buffer (l, a) = buffer.drop l.buf ∧ ¬ a.Hard
    | .fails errno => taken buffer (l, a) = [] ∧ errno = a.errno ∧ 0 < errno := by
  have hlen : l.len.toNat < 2 ^ 63 := by
    unfold TxdLocals.Within at hwithin
    omega
  have hleft := hwithin.length_drop
  cases hanswers with
  | took n errno hn hmax =>
    rw [Serial.body_took errno hmax]
    by_cases hall : n = l.len.toNat
    · rw [if_pos hall]
      refine ⟨?_, not_hard_took errno hmax⟩
      rw [taken_took errno hmax, hall, ← hleft, List.take_length]
    · rw [if_neg hall]
      refine ⟨?_, ?_, not_hard_took errno hmax⟩
      · have hsub : (l.len - UInt64.ofNat n).toNat = l.len.toNat - n := by
          have hcount := Serial.toNat_count hmax
          rw [UInt64.toNat_sub_of_le, hcount]
          rw [UInt64.le_iff_toNat_le, hcount]
          exact hn
        show l.buf + n + (l.len - UInt64.ofNat n).toNat = buffer.length
        rw [hsub, ← hwithin]
        omega
      · show taken buffer _ ++ buffer.drop (l.buf + n) = _
        rw [taken_took errno hmax, ← List.drop_drop, List.take_append_drop]
  | failed errno hpos =>
    rw [Serial.body_failed errno hlen]
    by_cases hagain : errno = eagainCode ∨ errno = ewouldblockCode
    · rw [if_pos hagain]
      refine ⟨hwithin, by rw [taken_failed, List.nil_append], fun hhard => ?_⟩
      rcases hagain with h | h
      · exact hhard.2.1 h
      · exact hhard.2.2 h
    · rw [if_neg hagain]
      exact ⟨taken_failed errno, rfl, hpos⟩

end

/-! ## Refinement -/

/-- An answer as it is in the account of the line. -/
def WriteAnswer.result (a : WriteAnswer) : WriteResult :=
  if h : a.ret = -1 ∧ 0 < a.errno.toInt then .error ⟨a.errno.toInt, h.2⟩
  else .ok a.ret.toNatClampNeg

/-- Where the program is after a pass. -/
def TxdPass.state (buffer : Bytes) : TxdPass → TxdState
  | .again l => .tcdrain buffer (buffer.drop l.buf)
  | .leaves => .fsync buffer
  | .fails _ => .idle

/-- **The pass in machine integers is the one of the account.** -/
theorem body_refines {buffer : Bytes} {l : TxdLocals} {a : WriteAnswer}
    (hsize : buffer.length < 2 ^ 63) (hwithin : l.Within buffer) (hanswers : a.Answers l.len) :
    (Serial.afterWrite buffer (buffer.drop l.buf) a.result).1
      = (Serial.txdBody l a).state buffer := by
  have hleft := hwithin.length_drop
  cases hanswers with
  | took n errno hn hmax =>
    have hcount : n < 2 ^ 63 := Nat.lt_of_le_of_lt hmax (by decide)
    have hresult : (WriteAnswer.mk (Int64.ofNat n) errno).result = .ok n := by
      have hret : Int64.ofNat n ≠ -1 := ofNat_ne_minus_one hmax
      unfold WriteAnswer.result
      rw [dif_neg (fun h => hret h.1), Int64.toNatClampNeg_ofNat_of_lt hcount]
    rw [hresult, Serial.body_took errno hmax, Serial.afterWrite, hleft]
    split
    · rfl
    · show TxdState.tcdrain buffer ((buffer.drop l.buf).drop n) = _
      rw [List.drop_drop]
      rfl
  | failed errno hpos =>
    have hpos' : 0 < errno.toInt := Int32.lt_iff_toInt_lt.mp hpos
    have hresult : (WriteAnswer.mk (-1) errno).result = .error ⟨errno.toInt, hpos'⟩ :=
      dif_pos ⟨rfl, hpos'⟩
    have hagain : errno.toInt = eagain ↔ errno = eagainCode ∨ errno = ewouldblockCode := by
      rw [show eagain = Int32.toInt eagainCode from rfl, Int32.toInt_inj]
      exact (or_self_iff).symm
    have hlen : l.len.toNat < 2 ^ 63 := by
      unfold TxdLocals.Within at hwithin
      omega
    rw [hresult, Serial.body_failed errno hlen, Serial.afterWrite]
    simp only [hagain]
    split
    · rfl
    · rfl

/-! ## The whole call -/

/-- The calls of a run from `l`, and its return value: what is taken begins what is left of
the buffer and is all of it at a return of 0; each request is what is not yet taken; a hard
error is the last answer and the return value. -/
structure Resumes (buffer : Bytes) (l : TxdLocals)
    (r : List (TxdLocals × WriteAnswer) × Option Int32) : Prop where
  begins : takenAll buffer r.1 <+: buffer.drop l.buf
  whole : r.2 = some 0 → takenAll buffer r.1 = buffer.drop l.buf
  requests : ∀ pre w post, r.1 = pre ++ w :: post →
    w.1.Within buffer ∧ takenAll buffer pre ++ buffer.drop w.1.buf = buffer.drop l.buf
      ∧ (w.2.Hard → post = [] ∧ r.2 = some w.2.errno)

section

variable {buffer : Bytes} {l l' : TxdLocals} {a : WriteAnswer} {rc : Option Int32}

theorem Resumes.none (hrest : rc = some 0 → buffer.drop l.buf = []) :
    Resumes buffer l ([], rc) :=
  ⟨List.nil_prefix, fun h => (hrest h).symm, fun pre w post h => by simp at h⟩

theorem Resumes.last (hwithin : l.Within buffer)
    (hbegins : taken buffer (l, a) <+: buffer.drop l.buf)
    (hwhole : rc = some 0 → taken buffer (l, a) = buffer.drop l.buf)
    (hhard : a.Hard → rc = some a.errno) : Resumes buffer l ([(l, a)], rc) := by
  have hall : takenAll buffer [(l, a)] = taken buffer (l, a) := by simp [takenAll]
  refine ⟨by rwa [hall], fun h => by rw [hall, hwhole h], fun pre w post hsplit => ?_⟩
  cases pre with
  | nil =>
    cases hsplit
    exact ⟨hwithin, rfl, fun h => ⟨rfl, hhard h⟩⟩
  | cons v pre => simp at hsplit

theorem Resumes.cons {r : List (TxdLocals × WriteAnswer) × Option Int32}
    (hwithin : l.Within buffer)
    (htaken : taken buffer (l, a) ++ buffer.drop l'.buf = buffer.drop l.buf) (hsoft : ¬ a.Hard)
    (hrest : Resumes buffer l' r) : Resumes buffer l ((l, a) :: r.1, r.2) := by
  have hall (ws : List (TxdLocals × WriteAnswer)) :
      takenAll buffer ((l, a) :: ws) = taken buffer (l, a) ++ takenAll buffer ws := by
    simp [takenAll]
  refine ⟨?_, fun h => ?_, fun pre w post hsplit => ?_⟩
  · rw [hall, ← htaken]
    exact (List.prefix_append_right_inj _).mpr hrest.begins
  · rw [hall, hrest.whole h, htaken]
  · cases pre with
    | nil =>
      cases hsplit
      exact ⟨hwithin, rfl, fun h => absurd h hsoft⟩
    | cons v pre =>
      simp only [List.cons_append, List.cons.injEq] at hsplit
      obtain ⟨rfl, hsplit⟩ := hsplit
      obtain ⟨hwithin', hrequest, hhard⟩ := hrest.requests pre w post hsplit
      refine ⟨hwithin', ?_, hhard⟩
      rw [hall, List.append_assoc, hrequest, htaken]

end

theorem txdWrites_zero {l : TxdLocals} (hlen : l.len = 0) (answers : List WriteAnswer) :
    Serial.txdWrites l answers = ([], some 0) := by
  cases answers with
  | nil => rw [Serial.txdWrites, if_pos hlen]
  | cons a answers => rw [Serial.txdWrites, if_pos hlen]

/-- **A run of the loop.** Induction on the answers, each pass handing on what it leaves. -/
theorem writes_resume {buffer : Bytes} (hsize : buffer.length < 2 ^ 63)
    (answers : List WriteAnswer) {l : TxdLocals} (hwithin : l.Within buffer)
    (hanswers : ∀ w ∈ (Serial.txdWrites l answers).1, w.2.Answers w.1.len) :
    Resumes buffer l (Serial.txdWrites l answers) := by
  induction answers generalizing l with
  | nil =>
    apply Resumes.none
    intro hrc
    apply hwithin.drop_eq_nil
    by_contra hlen
    rw [if_neg hlen] at hrc
    cases hrc
  | cons a answers ih =>
    by_cases hlen : l.len = 0
    · rw [txdWrites_zero hlen]
      apply Resumes.none
      exact fun _ => hwithin.drop_eq_nil hlen
    · rw [Serial.txdWrites, if_neg hlen] at hanswers ⊢
      have hspec := pass_spec (a := a) hsize hwithin
      cases hpass : Serial.txdBody l a with
      | again l' =>
        simp only [hpass] at hanswers hspec ⊢
        obtain ⟨hwithin', htaken, hsoft⟩ := hspec (hanswers (l, a) List.mem_cons_self)
        apply Resumes.cons hwithin htaken hsoft
        exact ih hwithin' fun w hw => hanswers w (List.mem_cons_of_mem _ hw)
      | leaves =>
        simp only [hpass] at hanswers hspec ⊢
        obtain ⟨htaken, hsoft⟩ := hspec (hanswers (l, a) List.mem_cons_self)
        apply Resumes.last hwithin
        · exact htaken ▸ List.prefix_rfl
        · exact fun _ => htaken
        · exact fun hhard => absurd hhard hsoft
      | fails errno =>
        simp only [hpass] at hanswers hspec ⊢
        obtain ⟨htaken, rfl, hpos⟩ := hspec (hanswers (l, a) List.mem_cons_self)
        apply Resumes.last hwithin
        · rw [htaken]
          exact List.nil_prefix
        · intro hzero
          rw [Option.some.inj hzero] at hpos
          exact absurd hpos (by decide)
        · exact fun _ => rfl

/-- **Partial writes are resumed exactly.** A vector has less than 2^63 bytes, and each answer is
one that `write` can give to the request it answers. -/
theorem txd_resumes (s : Serial) (buffer : Bytes) (answers : List WriteAnswer)
    (hconnected : s.connected = true) (hsize : buffer.length < 2 ^ 63)
    (hanswers : ∀ w ∈ (s.txdCall buffer answers).1, w.2.Answers w.1.len) :
    takenAll buffer (s.txdCall buffer answers).1 <+: buffer
      ∧ ((s.txdCall buffer answers).2 = some 0 →
          takenAll buffer (s.txdCall buffer answers).1 = buffer)
      ∧ ∀ pre w post, (s.txdCall buffer answers).1 = pre ++ w :: post →
          w.1.len.toNat = (buffer.drop w.1.buf).length
          ∧ takenAll buffer pre ++ buffer.drop w.1.buf = buffer
          ∧ (w.2.Hard → post = [] ∧ (s.txdCall buffer answers).2 = some w.2.errno) := by
  have hstart : TxdLocals.Within buffer ⟨0, UInt64.ofNat buffer.length⟩ := by
    show 0 + (UInt64.ofNat buffer.length).toNat = buffer.length
    rw [UInt64.toNat_ofNat_of_lt' (Nat.lt_trans hsize (by decide)), Nat.zero_add]
  unfold Serial.txdCall at hanswers ⊢
  rw [if_pos hconnected] at hanswers ⊢
  obtain ⟨hbegins, hwhole, hrequests⟩ := writes_resume hsize answers hstart hanswers
  refine ⟨hbegins, hwhole, fun pre w post hsplit => ?_⟩
  obtain ⟨hwithin, hrequest, hhard⟩ := hrequests pre w post hsplit
  exact ⟨hwithin.length_drop.symm, hrequest, hhard⟩

/-- One byte of three, a retry, nothing, and then a hard error. -/
theorem txd_resumes_error :
    takenAll [7, 8, 9] ((Serial.txdCall ⟨3, true⟩ [7, 8, 9]
        [⟨Int64.ofNat 1, 0⟩, ⟨-1, 11⟩, ⟨Int64.ofNat 0, 11⟩, ⟨-1, 5⟩]).1) = [7]
      ∧ takenAll [7, 8, 9] ((Serial.txdCall ⟨3, true⟩ [7, 8, 9]
        [⟨Int64.ofNat 1, 0⟩, ⟨-1, 11⟩, ⟨Int64.ofNat 0, 11⟩, ⟨-1, 5⟩]).1) <+: [7, 8, 9] := by
  refine ⟨by decide, (txd_resumes ⟨3, true⟩ [7, 8, 9] _ rfl (by decide) ?_).1⟩
  intro w hw
  have hcalls : (Serial.txdCall ⟨3, true⟩ [7, 8, 9]
      [⟨Int64.ofNat 1, 0⟩, ⟨-1, 11⟩, ⟨Int64.ofNat 0, 11⟩, ⟨-1, 5⟩]).1
        = [(⟨0, 3⟩, ⟨Int64.ofNat 1, 0⟩), (⟨1, 2⟩, ⟨-1, 11⟩), (⟨1, 2⟩, ⟨Int64.ofNat 0, 11⟩),
          (⟨1, 2⟩, ⟨-1, 5⟩)] := by decide
  rw [hcalls] at hw
  simp only [List.mem_cons, List.not_mem_nil, or_false] at hw
  rcases hw with rfl | rfl | rfl | rfl
  · exact .took 1 0 (by decide) (by decide)
  · exact .failed 11 (by decide)
  · exact .took 0 11 (by decide) (by decide)
  · exact .failed 5 (by decide)

end ZenohProxy
