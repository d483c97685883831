import Mathlib.Algebra.Order.BigOperators.Group.List
import Mathlib.Algebra.Order.Group.Int
import ZenohProxy.Basic
import ZenohProxy.Lib.Transfers

/-!
# The TCP socket of the proxy

`_zn_recv_bytes` and `_zn_send_wbuf` call `recv` and `send` again when only some of the bytes
have been moved. Both move their pointer by all that has been moved so far, from where the
last call has left it and not from where it was at first: the third call goes to the wrong
place. `_zn_recv_bytes` takes a negative result for a count.

`socket_transfers_iff` says which results of the two leave the functions correct.
-/

namespace ZenohProxy

open Transfers

/-- What `recv` answers: it has put some octets at the pointer, none at the end of the stream,
or it returns the negative value `-k - 1`. -/
inductive RecvResult where
  | received (bs : Bytes)
  | failed (k : Nat)
  deriving DecidableEq

/-- The value in `rb`. -/
def RecvResult.rb : RecvResult → Int
  | .received bs => bs.length
  | .failed k => Int.negSucc k

/-- A call of `send` or `recv`: what `n` and the pointer were, and what was returned. The
pointer counts from where it was at first. -/
structure SocketCall where
  n : Int
  ptr : Int
  count : Int
  deriving DecidableEq

/-- A count is at most the length that was asked for, which is `n` as a `size_t`, and it fits
an `int`. -/
def SocketCall.Admissible (call : SocketCall) : Prop :=
  call.count ≤ call.n % 2 ^ 64 ∧ call.count < 2 ^ 31

instance (call : SocketCall) : Decidable call.Admissible := by
  unfold SocketCall.Admissible
  infer_instance

/-! ## Receiving -/

structure RecvStep where
  n : Int
  ptr : Int
  result : RecvResult
  deriving DecidableEq

def RecvStep.call (step : RecvStep) : SocketCall := ⟨step.n, step.ptr, step.result.rb⟩

/-- What a call of `_zn_recv_bytes` has done, and what it returns. Without a return value it
is still waiting for `recv`. -/
structure RecvRun where
  steps : List RecvStep
  rc : Option Int
  deriving DecidableEq

/-- The `do` loop, with the results of `recv` that are left. An overflow of `n` is left out: it
takes a negative result, or a length that is no `int`. -/
def recvLoop (len : Nat) (n ptr : Int) : List RecvResult → RecvRun
  | [] => ⟨[], none⟩
  | r :: rs =>
    let step : RecvStep := ⟨n, ptr, r⟩
    if r.rb = 0 then ⟨[step], some (-1)⟩
    else
      let n := n - r.rb
      let ptr := ptr + (len - n)
      if 0 < n then
        let run := recvLoop len n ptr rs
        ⟨step :: run.steps, run.rc⟩
      else ⟨[step], some 0⟩

/-- `_zn_recv_bytes`. -/
def znRecvBytes (len : Nat) (rs : List RecvResult) : RecvRun :=
  recvLoop len (toInt32 len) 0 rs

/-- The octets of a step, and where they go. -/
def RecvStep.parts (step : RecvStep) : List (Int × Bytes) :=
  match step.result with
  | .received bs => [(step.ptr, bs)]
  | .failed _ => []

def RecvRun.parts (run : RecvRun) : List (Int × Bytes) := run.steps.flatMap RecvStep.parts

def RecvRun.received (run : RecvRun) : Bytes := run.parts.flatMap Prod.snd

/-! ## Sending -/

/-- The calls of `send` for a slice; was it sent; and the results that are left. -/
structure SliceRun where
  calls : List SocketCall
  sent : Option Bool
  rest : List Int
  deriving DecidableEq

/-- The `do` loop for a slice of `len` octets. -/
def sendLoop (len : Nat) (n val : Int) : List Int → SliceRun
  | [] => ⟨[], none, []⟩
  | wb :: wbs =>
    let call : SocketCall := ⟨n, val, wb⟩
    if wb ≤ 0 then ⟨[call], some false, wbs⟩
    else
      let n := n - wb
      let val := val + (len - n)
      if 0 < n then
        let run := sendLoop len n val wbs
        ⟨call :: run.calls, run.sent, run.rest⟩
      else ⟨[call], some true, wbs⟩

/-- The calls of `send` for each slice, and what `_zn_send_wbuf` returns. -/
structure SendRun where
  calls : List (List SocketCall)
  rc : Option Int
  deriving DecidableEq

/-- `_zn_send_wbuf`, on the slices of the buffer. -/
def znSendWbuf : List Bytes → List Int → SendRun
  | [], _ => ⟨[], some 0⟩
  | bs :: slices, wbs =>
    let slice := sendLoop bs.length (toInt32 bs.length) 0 wbs
    match slice.sent with
    | none => ⟨[slice.calls], none⟩
    | some false => ⟨[slice.calls], some (-1)⟩
    | some true =>
      let run := znSendWbuf slices slice.rest
      ⟨slice.calls :: run.calls, run.rc⟩

/-- The places in a slice of the octets that `send` has taken. -/
def SocketCall.places (call : SocketCall) : List Int :=
  (List.range call.count.toNat).map fun i : Nat => call.ptr + i

/-! ## What is asked of them -/

/-- A count that is not positive ends the call, which returns -1. -/
def StopsAtFailure (counts : List Int) (rc : Option Int) : Prop :=
  ∀ before c after, counts = before ++ c :: after → c ≤ 0 → after = [] ∧ rc = some (-1)

/-- On 0 the buffer holds what was received, as much as was asked for, and nothing else has
changed. -/
structure RecvCorrect (len : Nat) (run : RecvRun) : Prop where
  fills : run.rc = some 0 → run.received.length = len ∧
    ∀ mem, writes mem run.parts = blit mem 0 run.received
  stops : StopsAtFailure (run.steps.map fun step => step.result.rb) run.rc

/-- On 0 `send` has taken each octet of each slice once, in order. -/
structure SendCorrect (slices : List Bytes) (run : SendRun) : Prop where
  sends : run.rc = some 0 → run.calls.map (List.flatMap SocketCall.places)
    = slices.map fun bs => (List.range bs.length).map Int.ofNat
  stops : StopsAtFailure (run.calls.flatten.map SocketCall.count) run.rc

/-- No negative result is given to the call; and if the results complete it, then the length
is an `int` and there are two results at most. -/
def RecvWithin (len : Nat) (rs : List RecvResult) : Prop :=
  (∀ rb ∈ wanted (toInt32 len) (rs.map RecvResult.rb), 0 ≤ rb) ∧
    (Completes (toInt32 len) (rs.map RecvResult.rb) →
      len < 2 ^ 31 ∧ (wanted (toInt32 len) (rs.map RecvResult.rb)).length ≤ 2)

/-- The results for each slice, if they complete all of them. -/
def sliceResults : List Bytes → List Int → Option (List (List Int))
  | [], _ => some []
  | bs :: slices, wbs =>
    let used := wanted (toInt32 bs.length) wbs
    if Completes (toInt32 bs.length) wbs then
      (sliceResults slices (wbs.drop used.length)).map fun rest => used :: rest
    else none

/-- If the results complete all slices, then the length of each is an `int`, and it takes two
results at most. -/
def SendWithin (slices : List Bytes) (wbs : List Int) : Prop :=
  ∀ used, sliceResults slices wbs = some used →
    (∀ bs ∈ slices, bs.length < 2 ^ 31) ∧ ∀ counts ∈ used, counts.length ≤ 2

/-! ## Where the pointers go -/

/-- The calls that some counts come from. -/
def socketCalls (len n ptr : Int) : List Int → List SocketCall
  | [] => []
  | c :: cs => ⟨n, ptr, c⟩ :: socketCalls len (n - c) (ptr + (len - (n - c))) cs

/-- **Without a failure** each loop makes the calls that are wanted. -/
theorem recvLoop_calls (len : Nat) {n : Int} (ptr : Int) {rs : List RecvResult}
    (hok : ∀ rb ∈ wanted n (rs.map RecvResult.rb), 0 ≤ rb) :
    (recvLoop len n ptr rs).steps.map RecvStep.call
      = socketCalls len n ptr (wanted n (rs.map RecvResult.rb)) := by
  induction rs generalizing n ptr with
  | nil => rfl
  | cons r rs ih =>
    rw [List.map_cons] at hok ⊢
    have hnonneg : 0 ≤ r.rb := hok r.rb (by rw [wanted]; exact List.mem_cons_self)
    rw [recvLoop]
    by_cases hzero : r.rb = 0
    · rw [if_pos hzero, wanted_cons_of_not (by omega)]
      rfl
    · rw [if_neg hzero]
      by_cases hmore : r.rb < n
      · rw [wanted_cons_of_lt (by omega) hmore, List.forall_mem_cons] at hok
        rw [wanted_cons_of_lt (by omega) hmore, socketCalls, ← ih _ hok.2]
        dsimp only
        rw [if_pos (by omega)]
        rfl
      · rw [wanted_cons_of_not (by omega)]
        dsimp only
        rw [if_neg (by omega)]
        rfl

theorem stopsAtFailure_nil (rc : Option Int) : StopsAtFailure [] rc := by
  intro before c after heq
  simp at heq

theorem stopsAtFailure_cons {c : Int} {cs : List Int} {rc : Option Int} :
    StopsAtFailure (c :: cs) rc ↔ (c ≤ 0 → cs = [] ∧ rc = some (-1)) ∧ StopsAtFailure cs rc := by
  constructor
  · intro h
    exact ⟨h [] c cs rfl, fun before c' after heq => h (c :: before) c' after (by rw [heq]; rfl)⟩
  · rintro ⟨hhead, htail⟩ before c' after heq
    cases before with
    | nil =>
      obtain ⟨rfl, rfl⟩ := List.cons_eq_cons.mp heq
      exact hhead
    | cons b before => exact htail before c' after (List.tail_eq_of_cons_eq heq)

/-- The loop does not return -1 without a call of `recv`. -/
theorem recvLoop_goes_on (len : Nat) (n ptr : Int) (rs : List RecvResult) :
    ¬ ((recvLoop len n ptr rs).steps = [] ∧ (recvLoop len n ptr rs).rc = some (-1)) := by
  rintro ⟨hnil, hrc⟩
  cases rs with
  | nil => cases hrc
  | cons r rs =>
    rw [recvLoop] at hnil
    split at hnil
    · cases hnil
    · dsimp only at hnil
      split at hnil <;> cases hnil

theorem recvLoop_stops_iff (len : Nat) (n ptr : Int) (rs : List RecvResult) :
    StopsAtFailure ((recvLoop len n ptr rs).steps.map fun step => step.result.rb)
        (recvLoop len n ptr rs).rc ↔
      ∀ rb ∈ wanted n (rs.map RecvResult.rb), 0 ≤ rb := by
  induction rs generalizing n ptr with
  | nil => exact iff_of_true (stopsAtFailure_nil none) (by simp [wanted])
  | cons r rs ih =>
    rw [List.map_cons, recvLoop]
    rcases lt_trichotomy r.rb 0 with hneg | hzero | hpos
    -- the negative result is taken for a count
    · refine iff_of_false ?_ fun h => ?_
      · rw [if_neg hneg.ne]
        dsimp only
        split
        · rw [List.map_cons, stopsAtFailure_cons]
          rintro ⟨hstop, -⟩
          obtain ⟨hnil, hrc⟩ := hstop hneg.le
          exact recvLoop_goes_on _ _ _ rs ⟨List.map_eq_nil_iff.mp hnil, hrc⟩
        · rw [List.map_singleton, stopsAtFailure_cons]
          rintro ⟨hstop, -⟩
          exact absurd (hstop hneg.le).2 (by simp)
      · exact absurd (h r.rb (by rw [wanted]; exact List.mem_cons_self)) (not_le.mpr hneg)
    · rw [if_pos hzero, wanted_cons_of_not (by omega), List.map_singleton, stopsAtFailure_cons]
      exact iff_of_true ⟨fun _ => ⟨rfl, rfl⟩, stopsAtFailure_nil _⟩ (by simp [hzero])
    · rw [if_neg hpos.ne']
      dsimp only
      by_cases hmore : r.rb < n
      · rw [if_pos (by omega), List.map_cons, stopsAtFailure_cons, ih,
          wanted_cons_of_lt hpos hmore, List.forall_mem_cons]
        exact and_congr (iff_of_true (fun h => absurd h (not_le.mpr hpos)) hpos.le) Iff.rfl
      · rw [if_neg (by omega), List.map_singleton, stopsAtFailure_cons,
          wanted_cons_of_not (by omega)]
        exact iff_of_true ⟨fun h => absurd h (not_le.mpr hpos), stopsAtFailure_nil _⟩
          (by simpa using hpos.le)

theorem recvLoop_rc_iff (len : Nat) {n : Int} (ptr : Int) {rs : List RecvResult}
    (hok : ∀ rb ∈ wanted n (rs.map RecvResult.rb), 0 ≤ rb) :
    (recvLoop len n ptr rs).rc = some 0 ↔ Completes n (rs.map RecvResult.rb) := by
  induction rs generalizing n ptr with
  | nil => exact iff_of_false (by simp [recvLoop]) not_completes_nil
  | cons r rs ih =>
    rw [List.map_cons] at hok ⊢
    have hnonneg : 0 ≤ r.rb := hok r.rb (by rw [wanted]; exact List.mem_cons_self)
    rw [recvLoop]
    by_cases hzero : r.rb = 0
    · rw [if_pos hzero]
      exact iff_of_false (by simp) (not_completes_of_nonpos hzero.le)
    · rw [if_neg hzero]
      dsimp only
      by_cases hmore : r.rb < n
      · rw [wanted_cons_of_lt (by omega) hmore, List.forall_mem_cons] at hok
        rw [if_pos (by omega), completes_cons_iff (by omega) hmore]
        exact ih _ hok.2
      · rw [if_neg (by omega)]
        exact iff_of_true rfl (completes_of_le (by omega) (by omega))

/-- The loop for a slice: it makes the calls that are wanted, and stops at a failure. -/
structure SliceSpec (len : Nat) (n val : Int) (wbs : List Int) (run : SliceRun) : Prop where
  calls : run.calls = socketCalls len n val (wanted n wbs)
  sent : run.sent = some true ↔ Completes n wbs
  rest : run.sent = some true → run.rest = wbs.drop (wanted n wbs).length
  positive : run.sent ≠ some false → ∀ wb ∈ wanted n wbs, 0 < wb

theorem sendLoop_spec (len : Nat) (n val : Int) (wbs : List Int) :
    SliceSpec len n val wbs (sendLoop len n val wbs) := by
  induction wbs generalizing n val with
  | nil =>
    refine ⟨rfl, iff_of_false (by simp [sendLoop]) not_completes_nil, fun _ => ?_, fun _ => ?_⟩
    · rw [List.drop_nil]
      rfl
    · simp [wanted]
  | cons wb wbs ih =>
    rw [sendLoop]
    by_cases hfail : wb ≤ 0
    · rw [if_pos hfail]
      refine ⟨?_, iff_of_false (by simp) (not_completes_of_nonpos hfail), by simp, by simp⟩
      rw [wanted_cons_of_not (by omega)]
      rfl
    · rw [if_neg hfail]
      dsimp only
      by_cases hmore : wb < n
      · have h := ih (n - wb) (val + (len - (n - wb)))
        have hwanted : wanted n (wb :: wbs) = wb :: wanted (n - wb) wbs :=
          wanted_cons_of_lt (by omega) hmore
        rw [if_pos (by omega)]
        refine ⟨?_, ?_, fun hsent => ?_, fun hsent => ?_⟩
        · rw [hwanted, socketCalls, ← h.calls]
        · rw [completes_cons_iff (by omega) hmore]
          exact h.sent
        · rw [hwanted]
          exact h.rest hsent
        · rw [hwanted, List.forall_mem_cons]
          exact ⟨by omega, h.positive hsent⟩
      · have hwanted : wanted n (wb :: wbs) = [wb] := wanted_cons_of_not (by omega)
        rw [if_neg (by omega)]
        refine ⟨?_, iff_of_true rfl (completes_of_le (by omega) (by omega)), fun _ => ?_,
          fun _ => ?_⟩
        · rw [hwanted]
          rfl
        · rw [hwanted]
          rfl
        · rw [hwanted, List.forall_mem_singleton]
          omega

/-! ## Three transfers -/

/-- Admissible counts, with the length as an `int`: no more comes than `n`. -/
theorem sum_wanted_le {len : Nat} {n ptr : Int} {cs : List Int} (hn : 0 ≤ n) (hn' : n < 2 ^ 63)
    (hadm : ∀ call ∈ socketCalls len n ptr (wanted n cs), call.Admissible) :
    (wanted n cs).sum ≤ n := by
  induction cs generalizing n ptr with
  | nil => exact hn
  | cons c cs ih =>
    have hle : c ≤ n := by
      have hfirst := (hadm ⟨n, ptr, c⟩ (by rw [wanted]; exact List.mem_cons_self)).1
      rwa [Int.emod_eq_of_lt hn (by omega)] at hfirst
    by_cases hmore : 0 < c ∧ c < n
    · rw [wanted_cons_of_lt hmore.1 hmore.2] at hadm ⊢
      rw [socketCalls, List.forall_mem_cons] at hadm
      have hrest := ih (by omega) (by omega) hadm.2
      rw [List.sum_cons]
      omega
    · rw [wanted_cons_of_not hmore]
      simpa using hle

/-- **A length that is no `int`**: less comes than was asked for. -/
theorem sum_wanted_lt {len : Nat} {cs : List Int} (hlen : 2 ^ 31 ≤ len)
    (hadm : ∀ call ∈ socketCalls len (toInt32 len) 0 (wanted (toInt32 len) cs), call.Admissible) :
    (wanted (toInt32 len) cs).sum < len := by
  obtain ⟨hlo, hhi⟩ := isInt32_toInt32 len
  by_cases hpos : 0 < toInt32 len
  · have hle := sum_wanted_le hpos.le (by omega) hadm
    omega
  · cases cs with
    | nil =>
      rw [wanted, List.sum_nil]
      omega
    | cons c cs =>
      have hfirst := (hadm ⟨toInt32 len, 0, c⟩ (by rw [wanted]; exact List.mem_cons_self)).2
      rw [wanted_cons_of_not (by omega), List.sum_singleton]
      exact lt_of_lt_of_le hfirst (by exact_mod_cast hlen)

/-- The pointers do not go back. -/
theorem socketCalls_ptr_le {len n ptr : Int} {cs : List Int} (hcs : ∀ c ∈ cs, 0 < c)
    (hn : n ≤ len) : ∀ call ∈ socketCalls len n ptr cs, ptr ≤ call.ptr := by
  induction cs generalizing n ptr with
  | nil => simp [socketCalls]
  | cons c cs ih =>
    rw [List.forall_mem_cons] at hcs
    rw [socketCalls, List.forall_mem_cons]
    refine ⟨le_rfl, fun call hcall => ?_⟩
    have hle := ih hcs.2 (by omega) call hcall
    omega

/-- **From the third transfer on** the calls go past the place where the second has ended, and
none is made there. -/
theorem exists_skipped {len : Nat} {cs : List Int} (hpos : ∀ c ∈ cs, 0 < c)
    (hsum : cs.sum = len) (hthree : 2 < cs.length) :
    ∃ i : Nat, i < len ∧
      ∀ call ∈ socketCalls len len 0 cs, i < call.ptr ∨ call.ptr + call.count ≤ i := by
  obtain ⟨c₁, c₂, c₃, rest, rfl⟩ : ∃ c₁ c₂ c₃ rest, cs = c₁ :: c₂ :: c₃ :: rest := by
    match cs, hthree with
    | c₁ :: c₂ :: c₃ :: rest, _ => exact ⟨c₁, c₂, c₃, rest, rfl⟩
  simp only [List.forall_mem_cons, List.sum_cons] at hpos hsum
  obtain ⟨hpos₁, hpos₂, hpos₃, hpos⟩ := hpos
  have hrest : 0 ≤ rest.sum := List.sum_nonneg fun c hc => (hpos c hc).le
  obtain ⟨i, hi⟩ : ∃ i : Nat, (i : Int) = c₁ + c₂ := ⟨(c₁ + c₂).toNat, by omega⟩
  refine ⟨i, by omega, ?_⟩
  simp only [socketCalls, List.forall_mem_cons]
  refine ⟨.inr (by omega), .inr (by omega), .inl (by omega), fun call hcall => ?_⟩
  have hle := socketCalls_ptr_le hpos (by omega) call hcall
  exact .inl (by omega)

theorem socketCalls_count (len n ptr : Int) (cs : List Int) :
    (socketCalls len n ptr cs).map SocketCall.count = cs := by
  induction cs generalizing n ptr with
  | nil => rfl
  | cons c cs ih => rw [socketCalls, List.map_cons, ih]

/-! ## The two functions -/

/-- Where a part goes and how long it is. -/
def extent (part : Int × Bytes) : Int × Int := (part.1, part.2.length)

/-- Positive results are octets at the pointer. -/
theorem extents_parts {steps : List RecvStep} (hpos : ∀ step ∈ steps, 0 < step.result.rb) :
    (steps.flatMap RecvStep.parts).map extent
      = (steps.map RecvStep.call).map fun call => (call.ptr, call.count) := by
  induction steps with
  | nil => rfl
  | cons step steps ih =>
    obtain ⟨hstep, hsteps⟩ := List.forall_mem_cons.mp hpos
    rw [List.flatMap_cons, List.map_append, ih hsteps]
    obtain ⟨n, ptr, result⟩ := step
    cases result with
    | received bs => rfl
    | failed k => exact absurd hstep (by simp [RecvResult.rb])

theorem length_flatMap_parts (parts : List (Int × Bytes)) :
    ((parts.flatMap Prod.snd).length : Int) = ((parts.map extent).map Prod.snd).sum := by
  induction parts with
  | nil => rfl
  | cons part parts ih =>
    rw [List.flatMap_cons, List.length_append, List.map_cons, List.map_cons, List.sum_cons, ← ih]
    push_cast
    rfl

/-- Of two parts the second goes where the first has ended. -/
theorem writes_of_le_two {len : Nat} {parts : List (Int × Bytes)} {cs : List Int}
    (hparts : parts.map extent
      = (socketCalls len len 0 cs).map fun call => (call.ptr, call.count))
    (hne : cs ≠ []) (hfew : cs.length ≤ 2) (mem : Int → UInt8) :
    writes mem parts = blit mem 0 (parts.flatMap Prod.snd) := by
  match cs, hne, hfew with
  | [c], _, _ =>
    obtain ⟨⟨start, xs⟩, rest, rfl, hx, hrest⟩ := List.map_eq_cons_iff.mp hparts
    obtain rfl := List.map_eq_nil_iff.mp hrest
    obtain ⟨rfl, -⟩ := Prod.mk.inj hx
    rw [List.flatMap_singleton]
    rfl
  | [c₁, c₂], _, _ =>
    obtain ⟨⟨start, xs⟩, rest, rfl, hx, hrest⟩ := List.map_eq_cons_iff.mp hparts
    obtain ⟨⟨start', ys⟩, rest', rfl, hy, hrest'⟩ := List.map_eq_cons_iff.mp hrest
    obtain rfl := List.map_eq_nil_iff.mp hrest'
    obtain ⟨rfl, hxs⟩ := Prod.mk.inj hx
    obtain ⟨hstart', -⟩ := Prod.mk.inj hy
    obtain rfl : start' = xs.length := by
      dsimp only at hxs hstart'
      omega
    rw [writes_pair, List.flatMap_cons, List.flatMap_singleton]

/-- Of three parts none is put at the place where the second should end. -/
theorem exists_writes_ne {len : Nat} {parts : List (Int × Bytes)} {cs : List Int}
    (hparts : parts.map extent
      = (socketCalls len len 0 cs).map fun call => (call.ptr, call.count))
    (hpos : ∀ c ∈ cs, 0 < c) (hsum : cs.sum = len) (hthree : 2 < cs.length)
    (hlength : (parts.flatMap Prod.snd).length = len) :
    ∃ mem, writes mem parts ≠ blit mem 0 (parts.flatMap Prod.snd) := by
  obtain ⟨i, hi, hskip⟩ := exists_skipped hpos hsum hthree
  have : Nontrivial UInt8 := ⟨0, 1, by decide⟩
  refine writes_ne_blit (i := i) (by omega) fun part hmem => ?_
  have hextent := List.mem_map_of_mem (f := extent) hmem
  rw [hparts, List.mem_map] at hextent
  obtain ⟨call, hcall, heq⟩ := hextent
  obtain ⟨hptr, hcount⟩ := Prod.mk.inj heq
  rw [← hptr, show (part.2.length : Int) = call.count from hcount.symm]
  exact hskip call hcall

/-- **Where a completed call has put the octets.** -/
theorem recv_fills_iff {len : Nat} {parts : List (Int × Bytes)} {cs : List Int}
    (hparts : parts.map extent = (socketCalls len (toInt32 len) 0 (wanted (toInt32 len) cs)).map
      fun call => (call.ptr, call.count))
    (hadm : ∀ call ∈ socketCalls len (toInt32 len) 0 (wanted (toInt32 len) cs), call.Admissible)
    (hdone : Completes (toInt32 len) cs) :
    ((parts.flatMap Prod.snd).length = len ∧
        ∀ mem, writes mem parts = blit mem 0 (parts.flatMap Prod.snd)) ↔
      len < 2 ^ 31 ∧ (wanted (toInt32 len) cs).length ≤ 2 := by
  have hlength : ((parts.flatMap Prod.snd).length : Int) = (wanted (toInt32 len) cs).sum := by
    rw [length_flatMap_parts, hparts, List.map_map]
    exact congrArg List.sum (socketCalls_count ..)
  by_cases hlen : len < 2 ^ 31
  · have hn : toInt32 len = len := toInt32_of_isInt32 ⟨by omega, by omega⟩
    rw [hn] at hparts hadm hdone hlength ⊢
    obtain ⟨hpos, hne, htotal⟩ := hdone
    have hsum : (wanted len cs).sum = len :=
      le_antisymm (sum_wanted_le (by omega) (by omega) hadm) htotal
    have hall : (parts.flatMap Prod.snd).length = len := by omega
    rw [and_iff_right hall, and_iff_right hlen]
    by_cases hfew : (wanted len cs).length ≤ 2
    · exact iff_of_true (writes_of_le_two hparts hne hfew) hfew
    · obtain ⟨mem, hmem⟩ := exists_writes_ne hparts hpos hsum (by omega) hall
      exact iff_of_false (fun hwrites => hmem (hwrites mem)) hfew
  · refine iff_of_false (fun h => ?_) fun h => hlen h.1
    have hshort := sum_wanted_lt (Nat.not_lt.mp hlen) hadm
    omega

theorem recv_correct_iff {len : Nat} {rs : List RecvResult}
    (hadm : ∀ step ∈ (znRecvBytes len rs).steps, step.call.Admissible) :
    RecvCorrect len (znRecvBytes len rs) ↔ RecvWithin len rs := by
  have hstops := recvLoop_stops_iff len (toInt32 len) 0 rs
  by_cases hok : ∀ rb ∈ wanted (toInt32 len) (rs.map RecvResult.rb), 0 ≤ rb
  · have hcalls := recvLoop_calls len 0 hok
    have hdone := recvLoop_rc_iff len 0 hok
    have hadm' : ∀ call ∈ socketCalls len (toInt32 len) 0
        (wanted (toInt32 len) (rs.map RecvResult.rb)), call.Admissible := by
      rw [← hcalls]
      exact List.forall_mem_map.mpr hadm
    -- a completed call has had positive results only
    have hfills (h : Completes (toInt32 len) (rs.map RecvResult.rb)) := by
      refine @recv_fills_iff len (znRecvBytes len rs).parts _ ?_ hadm' h
      rw [← hcalls]
      refine extents_parts fun step hstep => h.1 step.result.rb ?_
      have hcount := congrArg (List.map SocketCall.count) hcalls
      rw [socketCalls_count, List.map_map] at hcount
      rw [← hcount]
      exact List.mem_map_of_mem hstep
    constructor
    · exact fun h => ⟨hok, fun hcompletes =>
        (hfills hcompletes).mp (h.fills (hdone.mpr hcompletes))⟩
    · exact fun h => ⟨fun hrc => (hfills (hdone.mp hrc)).mpr (h.2 (hdone.mp hrc)),
        hstops.mpr hok⟩
  · exact iff_of_false (fun h => hok (hstops.mp h.stops)) fun h => hok h.1

theorem mem_places {call : SocketCall} {x : Int} :
    x ∈ call.places ↔ call.ptr ≤ x ∧ x < call.ptr + call.count := by
  simp only [SocketCall.places, List.mem_map, List.mem_range]
  constructor
  · rintro ⟨i, hi, rfl⟩
    omega
  · rintro ⟨hlo, hhi⟩
    exact ⟨(x - call.ptr).toNat, by omega, by omega⟩

theorem length_flatMap_places (cs : List SocketCall)
    (hpos : ∀ call ∈ cs, 0 < call.count) :
    ((cs.flatMap SocketCall.places).length : Int) = (cs.map SocketCall.count).sum := by
  induction cs with
  | nil => rfl
  | cons call cs ih =>
    obtain ⟨hcall, hcalls⟩ := List.forall_mem_cons.mp hpos
    rw [List.flatMap_cons, List.length_append, List.map_cons, List.sum_cons, ← ih hcalls,
      SocketCall.places, List.length_map, List.length_range]
    omega

/-- Two calls read the slice from its start to its end. -/
theorem places_of_le_two {len : Nat} {cs : List Int} (hpos : ∀ c ∈ cs, 0 < c)
    (hsum : cs.sum = len) (hne : cs ≠ []) (hfew : cs.length ≤ 2) :
    (socketCalls len len 0 cs).flatMap SocketCall.places = (List.range len).map Int.ofNat := by
  match cs, hne, hfew with
  | [c], _, _ =>
    rw [List.sum_singleton] at hsum
    subst hsum
    simp [socketCalls, SocketCall.places]
  | [c₁, c₂], _, _ =>
    rw [List.forall_mem_cons, List.forall_mem_singleton] at hpos
    rw [List.sum_cons, List.sum_singleton] at hsum
    obtain ⟨a, rfl⟩ := Int.eq_ofNat_of_zero_le hpos.1.le
    obtain ⟨b, rfl⟩ := Int.eq_ofNat_of_zero_le hpos.2.le
    obtain rfl : len = a + b := by omega
    simp only [socketCalls, SocketCall.places, List.flatMap_cons, List.flatMap_nil,
      List.append_nil, List.range_add, List.map_append, List.map_map, Int.toNat_natCast]
    simp
    rfl

/-- The place between the second part and the third is read by no call. -/
theorem places_ne_of_three {len : Nat} {cs : List Int} (hpos : ∀ c ∈ cs, 0 < c)
    (hsum : cs.sum = len) (hthree : 2 < cs.length) :
    (socketCalls len len 0 cs).flatMap SocketCall.places ≠ (List.range len).map Int.ofNat := by
  intro hplaces
  obtain ⟨i, hi, hskip⟩ := exists_skipped hpos hsum hthree
  have hplace : (i : Int) ∈ (List.range len).map Int.ofNat :=
    List.mem_map.mpr ⟨i, List.mem_range.mpr hi, rfl⟩
  rw [← hplaces, List.mem_flatMap] at hplace
  obtain ⟨call, hcall, hread⟩ := hplace
  have hlo := mem_places.mp hread
  have hhi := hskip call hcall
  omega

/-- **Where a completed slice has been read.** -/
theorem slice_places_iff {len : Nat} {wbs : List Int}
    (hadm : ∀ call ∈ socketCalls len (toInt32 len) 0 (wanted (toInt32 len) wbs), call.Admissible)
    (hdone : Completes (toInt32 len) wbs) :
    (socketCalls len (toInt32 len) 0 (wanted (toInt32 len) wbs)).flatMap SocketCall.places
        = (List.range len).map Int.ofNat ↔
      len < 2 ^ 31 ∧ (wanted (toInt32 len) wbs).length ≤ 2 := by
  by_cases hlen : len < 2 ^ 31
  · have hn : toInt32 len = len := toInt32_of_isInt32 ⟨by omega, by omega⟩
    rw [hn] at hadm hdone ⊢
    obtain ⟨hpos, hne, htotal⟩ := hdone
    have hsum : (wanted len wbs).sum = len :=
      le_antisymm (sum_wanted_le (by omega) (by omega) hadm) htotal
    rw [and_iff_right hlen]
    by_cases hfew : (wanted len wbs).length ≤ 2
    · exact iff_of_true (places_of_le_two hpos hsum hne hfew) hfew
    · exact iff_of_false (places_ne_of_three hpos hsum (by omega)) hfew
  · refine iff_of_false (fun h => ?_) fun h => hlen h.1
    have hcount := socketCalls_count len (toInt32 len) 0 (wanted (toInt32 len) wbs)
    have hpositive : ∀ call ∈ socketCalls len (toInt32 len) 0 (wanted (toInt32 len) wbs),
        0 < call.count := fun call hcall =>
      hdone.1 call.count (hcount ▸ List.mem_map_of_mem hcall)
    have hlength := length_flatMap_places _ hpositive
    have hshort := sum_wanted_lt (Nat.not_lt.mp hlen) hadm
    rw [hcount, h, List.length_map, List.length_range] at hlength
    omega

/-- The calls of `send` for a slice that come from some results. -/
def sliceCalls (bs : Bytes) (wbs : List Int) : List SocketCall :=
  socketCalls bs.length (toInt32 bs.length) 0 (wanted (toInt32 bs.length) wbs)

/-- **One slice**: it is sent and the others follow, or the function stops or waits there. -/
theorem znSendWbuf_cons (bs : Bytes) (slices : List Bytes) (wbs : List Int) :
    (Completes (toInt32 bs.length) wbs ∧ ∃ run,
        run = znSendWbuf slices (wbs.drop (wanted (toInt32 bs.length) wbs).length) ∧
        znSendWbuf (bs :: slices) wbs = ⟨sliceCalls bs wbs :: run.calls, run.rc⟩) ∨
      ¬ Completes (toInt32 bs.length) wbs ∧ ∃ rc,
        znSendWbuf (bs :: slices) wbs = ⟨[sliceCalls bs wbs], rc⟩ ∧
        (rc = some (-1) ∨ rc = none ∧ ∀ wb ∈ wanted (toInt32 bs.length) wbs, 0 < wb) := by
  have h := sendLoop_spec bs.length (toInt32 bs.length) 0 wbs
  rw [znSendWbuf, sliceCalls, ← h.calls, ← h.sent]
  dsimp only
  cases hsent : (sendLoop bs.length (toInt32 bs.length) 0 wbs).sent with
  | none => exact .inr ⟨by simp, none, rfl, .inr ⟨rfl, h.positive (by rw [hsent]; simp)⟩⟩
  | some ok =>
    cases ok with
    | false => exact .inr ⟨by simp, some (-1), rfl, .inl rfl⟩
    | true => exact .inl ⟨rfl, _, rfl, by rw [h.rest hsent]⟩

theorem znSendWbuf_rc_iff (slices : List Bytes) (wbs : List Int) :
    (znSendWbuf slices wbs).rc = some 0 ↔ (sliceResults slices wbs).isSome := by
  induction slices generalizing wbs with
  | nil => exact iff_of_true rfl rfl
  | cons bs slices ih =>
    rw [sliceResults]
    rcases znSendWbuf_cons bs slices wbs with ⟨hdone, run, rfl, heq⟩ | ⟨hdone, rc, heq, hrc⟩
    · rw [heq, if_pos hdone, Option.isSome_map]
      exact ih _
    · rw [heq, if_neg hdone]
      rcases hrc with rfl | ⟨rfl, -⟩ <;> simp

theorem znSendWbuf_places_iff {slices : List Bytes} {wbs : List Int} {used : List (List Int)}
    (hused : sliceResults slices wbs = some used)
    (hadm : ∀ call ∈ (znSendWbuf slices wbs).calls.flatten, call.Admissible) :
    (znSendWbuf slices wbs).calls.map (List.flatMap SocketCall.places)
        = slices.map (fun bs => (List.range bs.length).map Int.ofNat) ↔
      (∀ bs ∈ slices, bs.length < 2 ^ 31) ∧ ∀ counts ∈ used, counts.length ≤ 2 := by
  induction slices generalizing wbs used with
  | nil =>
    cases hused
    exact iff_of_true rfl (by simp)
  | cons bs slices ih =>
    rw [sliceResults] at hused
    rcases znSendWbuf_cons bs slices wbs with ⟨hdone, run, rfl, heq⟩ | ⟨hdone, -⟩
    · simp only [if_pos hdone, Option.map_eq_some_iff] at hused
      obtain ⟨rest, hrest, rfl⟩ := hused
      rw [heq, List.flatten_cons, List.forall_mem_append] at hadm
      rw [heq, List.map_cons, List.map_cons, List.cons.injEq, ih hrest hadm.2,
        List.forall_mem_cons, List.forall_mem_cons, and_and_and_comm]
      exact and_congr_left fun _ => slice_places_iff hadm.1 hdone
    · rw [if_neg hdone] at hused
      cases hused

theorem stopsAtFailure_append {xs ys : List Int} {rc : Option Int} (hxs : ∀ c ∈ xs, 0 < c) :
    StopsAtFailure (xs ++ ys) rc ↔ StopsAtFailure ys rc := by
  induction xs with
  | nil => rfl
  | cons x xs ih =>
    rw [List.forall_mem_cons] at hxs
    rw [List.cons_append, stopsAtFailure_cons, ih hxs.2]
    exact and_iff_right fun h => absurd h (not_le.mpr hxs.1)

theorem stopsAtFailure_wanted (n : Int) (cs : List Int) :
    StopsAtFailure (wanted n cs) (some (-1)) := by
  induction cs generalizing n with
  | nil => exact stopsAtFailure_nil _
  | cons c cs ih =>
    by_cases hmore : 0 < c ∧ c < n
    · rw [wanted_cons_of_lt hmore.1 hmore.2, stopsAtFailure_cons]
      exact ⟨fun h => absurd h (not_le.mpr hmore.1), ih _⟩
    · rw [wanted_cons_of_not hmore, stopsAtFailure_cons]
      exact ⟨fun _ => ⟨rfl, rfl⟩, stopsAtFailure_nil _⟩

/-- `_zn_send_wbuf` stops at a failure whatever the slices are. -/
theorem znSendWbuf_stops (slices : List Bytes) (wbs : List Int) :
    StopsAtFailure ((znSendWbuf slices wbs).calls.flatten.map SocketCall.count)
      (znSendWbuf slices wbs).rc := by
  induction slices generalizing wbs with
  | nil => exact stopsAtFailure_nil _
  | cons bs slices ih =>
    have hcounts : (sliceCalls bs wbs).map SocketCall.count = wanted (toInt32 bs.length) wbs :=
      socketCalls_count ..
    rcases znSendWbuf_cons bs slices wbs with ⟨hdone, run, rfl, heq⟩ | ⟨-, rc, heq, hrc⟩
    · rw [heq, List.flatten_cons, List.map_append, hcounts, stopsAtFailure_append hdone.1]
      exact ih _
    · rw [heq, List.flatten_cons, List.flatten_nil, List.append_nil, hcounts]
      rcases hrc with rfl | ⟨rfl, hpos⟩
      · exact stopsAtFailure_wanted _ _
      · rw [← List.append_nil (wanted _ _), stopsAtFailure_append hpos]
        exact stopsAtFailure_nil _

theorem send_correct_iff {slices : List Bytes} {wbs : List Int}
    (hadm : ∀ call ∈ (znSendWbuf slices wbs).calls.flatten, call.Admissible) :
    SendCorrect slices (znSendWbuf slices wbs) ↔ SendWithin slices wbs := by
  constructor
  · intro h used hused
    refine (znSendWbuf_places_iff hused hadm).mp (h.sends ?_)
    rw [znSendWbuf_rc_iff, hused]
    rfl
  · refine fun h => ⟨fun hrc => ?_, znSendWbuf_stops slices wbs⟩
    obtain ⟨used, hused⟩ := Option.isSome_iff_exists.mp ((znSendWbuf_rc_iff slices wbs).mp hrc)
    exact (znSendWbuf_places_iff hused hadm).mpr (h used hused)

/-- **When the transfers survive being split.** -/
theorem socket_transfers_iff (len : Nat) (rs : List RecvResult) (slices : List Bytes)
    (wbs : List Int) (hrecv : ∀ step ∈ (znRecvBytes len rs).steps, step.call.Admissible)
    (hsend : ∀ call ∈ (znSendWbuf slices wbs).calls.flatten, call.Admissible) :
    (RecvCorrect len (znRecvBytes len rs) ↔ RecvWithin len rs) ∧
      (SendCorrect slices (znSendWbuf slices wbs) ↔ SendWithin slices wbs) :=
  ⟨recv_correct_iff hrecv, send_correct_iff hsend⟩

theorem socket_transfers_two :
    (RecvCorrect 2 (znRecvBytes 2 [.received [1], .received [2]]) ↔
      RecvWithin 2 [.received [1], .received [2]]) ∧
    (SendCorrect [[1, 2]] (znSendWbuf [[1, 2]] [1, 1]) ↔ SendWithin [[1, 2]] [1, 1]) :=
  socket_transfers_iff 2 _ [[1, 2]] _ (by decide) (by decide)

/-- Three octets that come or go one by one, and a failure of `recv`. -/
theorem socket_transfers_three :
    let recv := znRecvBytes 3 [.received [1], .received [2], .received [3]]
    let send := znSendWbuf [[1, 2, 3]] [1, 1, 1]
    (∀ step ∈ recv.steps, step.call.Admissible) ∧ ¬ RecvCorrect 3 recv ∧
      (∀ call ∈ send.calls.flatten, call.Admissible) ∧ ¬ SendCorrect [[1, 2, 3]] send ∧
      ¬ RecvCorrect 1 (znRecvBytes 1 [.failed 0]) := by
  refine ⟨by decide, fun h => ?_, by decide, fun h => ?_, fun h => ?_⟩
  · have hplace := congrFun ((h.fills rfl).2 fun _ => 0) 2
    exact absurd hplace (by decide)
  · exact absurd (h.sends rfl) (by decide)
  · exact absurd (h.stops [] (-1) [] rfl (by decide)).2 (by decide)

end ZenohProxy
