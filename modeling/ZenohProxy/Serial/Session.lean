import ZenohProxy.Basic

/-!
# The serial session

`Serial` reads from the port and `SerialSession` hands on what it has read. `rxd` reads until
there is nothing more, and returns what it has together with a code; `invoke` publishes on
`incoming` only when the code is 0. What `read` answers comes from outside, and a call of
`rxd` returns when an answer without data is there.

`received_delivered_iff` says when all that was read is published.
-/

namespace ZenohProxy

/-- What a call of the system leaves in `errno` when it fails. -/
structure Errno where
  val : Int
  pos : 0 < val
  deriving DecidableEq

def enotconn : Int := 107

/-- `EAGAIN`, which is also `EWOULDBLOCK`. -/
def eagain : Int := 11

/-- What `read` answers: a block of at most the size of the buffer, which is empty when there
is no data, or an error. -/
inductive ReadResult where
  | ok (block : Bytes)
  | error (errno : Errno)
  deriving DecidableEq

structure Serial where
  fd : Int
  connected : Bool
  deriving DecidableEq

namespace Serial

/-- The loop of `rxd`: the code, the vector and the answers that are left. Without an answer
it is still reading. -/
def rxdLoop (out : Bytes) : List ReadResult → Option (Int × Bytes × List ReadResult)
  | [] => none
  | .ok block :: reads =>
    if block.length > 0 then rxdLoop (out ++ block) reads else some (0, out, reads)
  | .error errno :: reads =>
    some (if errno.val = eagain then 0 else errno.val, out, reads)

def rxd (s : Serial) (reads : List ReadResult) : Option (Int × Bytes × List ReadResult) :=
  if s.connected then rxdLoop [] reads else some (enotconn, [], reads)

/-- Where `close` fails, as it always does for -1, the warning has a number where its format
asks for a text, and nothing is defined from there on. -/
def disconnect (s : Serial) (close : Option Errno) : Option (Serial × Int) :=
  if s.fd = -1 ∨ close.isSome then none else some (⟨-1, false⟩, 0)

end Serial

structure SerialSession where
  serialPort : Serial
  rxdBuffer : Bytes
  deriving DecidableEq

/-- What a session does to the rest of the program: it assigns to one of its sources, or
takes the invokers for a file descriptor from its thread. -/
inductive SessionOutput where
  | incoming (bs : Bytes)
  | connected (v : Bool)
  | deleteInvoker (fd : Int)
  deriving DecidableEq

namespace SerialSession

/-- On data: with the answers that are left. -/
def invoke (s : SerialSession) (reads : List ReadResult) :
    Option (SerialSession × List SessionOutput × List ReadResult) :=
  match s.serialPort.rxd reads with
  | none => none
  | some (rc, rxdBuffer, reads) =>
    let out := if rc = 0 then if rxdBuffer.length = 0 then [] else [.incoming rxdBuffer] else []
    some ({ s with rxdBuffer }, out, reads)

/-- Any number of calls of `invoke`. -/
def invokes (s : SerialSession) :
    Nat → List ReadResult → Option (SerialSession × List SessionOutput × List ReadResult)
  | 0, reads => some (s, [], reads)
  | n + 1, reads =>
    match s.invoke reads with
    | none => none
    | some (s, out, reads) =>
      match s.invokes n reads with
      | none => none
      | some (s, outs, reads) => some (s, out ++ outs, reads)

def disconnect (s : SerialSession) (close : Option Errno) :
    Option (SerialSession × List SessionOutput) := do
  let (serialPort, _) ← s.serialPort.disconnect close
  some ({ s with serialPort }, [.deleteInvoker s.serialPort.fd])

/-- On an error of the port. -/
def onError (s : SerialSession) (close : Option Errno) :
    Option (SerialSession × List SessionOutput) :=
  s.disconnect close

end SerialSession

/-! ## What is read and what is published -/

/-- All that `read` returned successfully. -/
def received (reads : List ReadResult) : Bytes :=
  reads.flatMap fun r =>
    match r with
    | .ok block => block
    | .error _ => []

/-- All values published on `incoming`, one after the other. -/
def published (outs : List SessionOutput) : Bytes :=
  outs.flatMap fun o =>
    match o with
    | .incoming bs => bs
    | _ => []

/-- An error that is more than the end of the data. -/
def Errno.Hard (errno : Errno) : Prop := errno.val ≠ eagain

/-- A hard error comes right after a block of data. -/
def ErrorAfterData (reads : List ReadResult) : Prop :=
  ∃ block errno, block ≠ [] ∧ errno.Hard ∧ [.ok block, .error errno] <:+: reads

/-- The answer that ends a call of `rxd`, with the code that `rxd` returns. -/
inductive Ends : ReadResult → Int → Prop where
  | noData : Ends (.ok []) 0
  | again {errno : Errno} (h : ¬ errno.Hard) : Ends (.error errno) 0
  | hard {errno : Errno} (h : errno.Hard) : Ends (.error errno) errno.val

theorem received_append (reads reads' : List ReadResult) :
    received (reads ++ reads') = received reads ++ received reads' := List.flatMap_append

theorem published_append (outs outs' : List SessionOutput) :
    published (outs ++ outs') = published outs ++ published outs' := List.flatMap_append

namespace Serial

/-- `rxd` takes blocks of data and the answer that ends it. -/
theorem rxdLoop_spec {out : Bytes} {reads rest : List ReadResult} {rc : Int} {buffer : Bytes}
    (h : rxdLoop out reads = some (rc, buffer, rest)) :
    ∃ (blocks : List Bytes) (last : ReadResult),
      reads = blocks.map .ok ++ last :: rest ∧ (∀ b ∈ blocks, b ≠ []) ∧ Ends last rc ∧
        buffer = out ++ blocks.flatten := by
  induction reads generalizing out with
  | nil => cases h
  | cons r reads ih =>
    cases r with
    | ok block =>
      rw [rxdLoop] at h
      split at h
      · rename_i hpos
        obtain ⟨blocks, last, rfl, hblocks, hends, rfl⟩ := ih h
        refine ⟨block :: blocks, last, rfl, ?_, hends, ?_⟩
        · rw [List.forall_mem_cons]
          exact ⟨List.ne_nil_of_length_pos hpos, hblocks⟩
        · rw [List.flatten_cons, List.append_assoc]
      · rename_i hpos
        obtain rfl : block = [] := List.eq_nil_of_length_eq_zero (by omega)
        cases h
        exact ⟨[], .ok [], rfl, by simp, .noData, by simp⟩
    | error errno =>
      simp only [rxdLoop, Option.some.injEq, Prod.mk.injEq] at h
      obtain ⟨hrc, rfl, rfl⟩ := h
      refine ⟨[], .error errno, rfl, by simp, ?_, by simp⟩
      split at hrc
      · rename_i hagain
        subst hrc
        exact .again (by simpa [Errno.Hard] using hagain)
      · rename_i hhard
        subst hrc
        exact .hard hhard

end Serial

theorem Ends.data {last : ReadResult} {rc : Int} (h : Ends last rc) {block : Bytes}
    (hlast : last = .ok block) : block = [] := by
  cases h <;> cases hlast
  rfl

theorem Ends.code {last : ReadResult} {rc : Int} (h : Ends last rc) :
    rc ≠ 0 ↔ ∃ errno : Errno, errno.Hard ∧ last = .error errno := by
  cases h with
  | noData => simp
  | again hagain =>
    refine iff_of_false (fun h => h rfl) ?_
    rintro ⟨errno, hhard, hlast⟩
    cases hlast
    exact hagain hhard
  | @hard errno hhard =>
    have hpos := errno.pos
    exact iff_of_true (by omega) ⟨errno, hhard, rfl⟩

theorem errorAfterData_cons (r : ReadResult) (reads : List ReadResult) :
    ErrorAfterData (r :: reads) ↔
      (∃ block errno rest, block ≠ [] ∧ Errno.Hard errno ∧ r = .ok block ∧
        reads = .error errno :: rest) ∨ ErrorAfterData reads := by
  constructor
  · rintro ⟨block, errno, hne, hhard, hinfix⟩
    rcases List.infix_cons_iff.mp hinfix with ⟨rest, heq⟩ | hinfix
    · simp only [List.cons_append, List.nil_append, List.cons.injEq] at heq
      exact .inl ⟨block, errno, rest, hne, hhard, heq.1.symm, heq.2.symm⟩
    · exact .inr ⟨block, errno, hne, hhard, hinfix⟩
  · rintro (⟨block, errno, rest, hne, hhard, rfl, rfl⟩ | ⟨block, errno, hne, hhard, hinfix⟩)
    · exact ⟨block, errno, hne, hhard, [], rest, rfl⟩
    · exact ⟨block, errno, hne, hhard, hinfix.trans (List.suffix_cons _ _).isInfix⟩

/-- Where a hard error comes right after data: at the end of a call that has read some, or
after that call. -/
theorem errorAfterData_call {blocks : List Bytes} (hblocks : ∀ b ∈ blocks, b ≠ [])
    {last : ReadResult} {rc : Int} (hends : Ends last rc) (reads : List ReadResult) :
    ErrorAfterData (blocks.map .ok ++ last :: reads) ↔
      (blocks ≠ [] ∧ rc ≠ 0) ∨ ErrorAfterData reads := by
  induction blocks with
  | nil =>
    rw [List.map_nil, List.nil_append, errorAfterData_cons]
    refine or_congr_left (iff_of_false ?_ fun h => h.1 rfl)
    rintro ⟨block, errno, rest, hne, -, hlast, -⟩
    exact hne (hends.data hlast)
  | cons b blocks ih =>
    rw [List.forall_mem_cons] at hblocks
    rw [List.map_cons, List.cons_append, errorAfterData_cons, ih hblocks.2, hends.code]
    cases blocks with
    -- the answer after the block is the last of the call
    | nil =>
      simp only [List.map_nil, List.nil_append, List.cons.injEq, ne_eq, not_true_eq_false,
        false_and, false_or, reduceCtorEq, not_false_eq_true, true_and]
      refine or_congr_left ⟨?_, ?_⟩
      · rintro ⟨block, errno, rest, -, hhard, -, rfl, -⟩
        exact ⟨errno, hhard, rfl⟩
      · rintro ⟨errno, hhard, rfl⟩
        exact ⟨b, errno, reads, hblocks.1, hhard, rfl, rfl, rfl⟩
    | cons b' blocks => simp

namespace SerialSession

theorem received_blocks (blocks : List Bytes) : received (blocks.map .ok) = blocks.flatten := by
  induction blocks with
  | nil => rfl
  | cons b blocks ih => exact congrArg (b ++ ·) ih

/-- The buffer is published when `rxd` has returned 0. -/
theorem published_buffer (rc : Int) (buffer : Bytes) :
    published (if rc = 0 then if buffer.length = 0 then [] else [.incoming buffer] else [])
      = if rc = 0 then buffer else [] := by
  by_cases hrc : rc = 0
  · rw [if_pos hrc, if_pos hrc]
    split
    · rename_i hlen
      rw [List.eq_nil_of_length_eq_zero hlen]
      rfl
    · simp [published]
  · rw [if_neg hrc, if_neg hrc]
    rfl

/-- A call of `invoke` publishes what it has read, unless that is followed by a hard error:
then it publishes nothing. -/
theorem invoke_spec {s s' : SerialSession} (hs : s.serialPort.connected = true)
    {reads rest : List ReadResult} {outs : List SessionOutput}
    (h : s.invoke reads = some (s', outs, rest)) :
    ∃ used, reads = used ++ rest ∧ s'.serialPort = s.serialPort ∧
      (published outs).length ≤ (received used).length ∧
      ∀ later, ErrorAfterData (used ++ later) ↔
        published outs ≠ received used ∨ ErrorAfterData later := by
  unfold invoke at h
  cases hrxd : s.serialPort.rxd reads with
  | none => simp only [hrxd, reduceCtorEq] at h
  | some r =>
    obtain ⟨rc, buffer, rest'⟩ := r
    simp only [hrxd, Option.some.injEq, Prod.mk.injEq] at h
    obtain ⟨rfl, rfl, rfl⟩ := h
    rw [Serial.rxd, if_pos hs] at hrxd
    obtain ⟨blocks, last, rfl, hblocks, hends, rfl⟩ := Serial.rxdLoop_spec hrxd
    have hlast : received [last] = [] := by
      cases hends <;> rfl
    have hread : received (blocks.map .ok ++ [last]) = blocks.flatten := by
      rw [received_append, received_blocks, hlast, List.append_nil]
    refine ⟨blocks.map .ok ++ [last], by simp, rfl, ?_, fun later => ?_⟩
    · rw [List.nil_append, hread, published_buffer]
      split <;> simp
    · rw [List.append_assoc]
      refine (errorAfterData_call hblocks hends later).trans (or_congr_left ?_)
      rw [List.nil_append, hread, published_buffer]
      by_cases hrc : rc = 0
      · simp [hrc]
      · rw [if_neg hrc]
        refine ⟨fun h hnil => ?_, fun h => ⟨?_, hrc⟩⟩
        · -- all blocks would be empty
          obtain ⟨b, hb⟩ := List.exists_mem_of_ne_nil blocks h.1
          exact hblocks b hb (List.flatten_eq_nil_iff.mp hnil.symm b hb)
        · rintro rfl
          exact h rfl

theorem append_eq_of_length_le {as bs as' bs' : Bytes} (ha : as.length ≤ as'.length)
    (hb : bs.length ≤ bs'.length) : as ++ bs = as' ++ bs' ↔ as = as' ∧ bs = bs' := by
  constructor
  · intro h
    have hlen := congrArg List.length h
    rw [List.length_append, List.length_append] at hlen
    exact List.append_inj h (by omega)
  · rintro ⟨rfl, rfl⟩
    rfl

/-- Calls add up: what one drops no later one makes good. -/
theorem invokes_spec {s s' : SerialSession} (hs : s.serialPort.connected = true) {n : Nat}
    {reads rest : List ReadResult} {outs : List SessionOutput}
    (h : s.invokes n reads = some (s', outs, rest)) :
    ∃ used, reads = used ++ rest ∧ (published outs).length ≤ (received used).length ∧
      (ErrorAfterData used ↔ published outs ≠ received used) := by
  induction n generalizing s reads outs with
  | zero =>
    cases h
    refine ⟨[], rfl, Nat.le_refl _, iff_of_false ?_ fun h => h rfl⟩
    rintro ⟨block, errno, -, -, hinfix⟩
    cases List.infix_nil.mp hinfix
  | succ n ih =>
    rw [invokes] at h
    cases hfirst : s.invoke reads with
    | none => simp only [hfirst, reduceCtorEq] at h
    | some first =>
      obtain ⟨s₁, out, reads₁⟩ := first
      cases hlater : s₁.invokes n reads₁ with
      | none => simp only [hfirst, hlater, reduceCtorEq] at h
      | some later =>
        obtain ⟨s₂, outs₂, reads₂⟩ := later
        simp only [hfirst, hlater, Option.some.injEq, Prod.mk.injEq] at h
        obtain ⟨rfl, rfl, rfl⟩ := h
        obtain ⟨used, rfl, hport, hle, herror⟩ := invoke_spec hs hfirst
        obtain ⟨used', rfl, hle', herror'⟩ := ih (hport ▸ hs) hlater
        refine ⟨used ++ used', (List.append_assoc ..).symm, ?_, ?_⟩
        · rw [published_append, received_append, List.length_append, List.length_append]
          omega
        · rw [herror, herror', published_append, received_append, ne_eq, ne_eq, ne_eq,
            append_eq_of_length_le hle hle', not_and_or]

/-- **When serial receive loses nothing.** Over any number of calls of `invoke` on a
connected port, what is published on `incoming` is all that `read` returned, in order,
exactly when no hard error comes right after a block of data. -/
theorem received_delivered_iff (s : SerialSession) (hs : s.serialPort.connected = true) (n : Nat)
    (used rest : List ReadResult) (s' : SerialSession) (outs : List SessionOutput)
    (h : s.invokes n (used ++ rest) = some (s', outs, rest)) :
    published outs = received used ↔ ¬ ErrorAfterData used := by
  obtain ⟨used', hused, -, herror⟩ := invokes_spec hs h
  obtain rfl := List.append_cancel_right hused
  rw [herror, ne_eq, not_not]

/-- The octet 7 has been read when the port fails. -/
theorem read_before_error_dropped :
    (⟨⟨3, true⟩, []⟩ : SerialSession).invokes 1 [.ok [7], .error ⟨5, by decide⟩]
        = some (⟨⟨3, true⟩, [7]⟩, [], []) ∧
      published [] ≠ received [.ok [7], .error ⟨5, by decide⟩] := by
  decide

/-- Two calls: the first ends without data, the second with the error. -/
theorem received_delivered_iff_two :
    published [.incoming [7, 8]] = received [.ok [7], .ok [8], .error ⟨11, by decide⟩,
        .error ⟨5, by decide⟩] ↔
      ¬ ErrorAfterData [.ok [7], .ok [8], .error ⟨11, by decide⟩, .error ⟨5, by decide⟩] :=
  received_delivered_iff ⟨⟨3, true⟩, []⟩ rfl 2 _ [] ⟨⟨3, true⟩, []⟩ _ rfl

end SerialSession

end ZenohProxy
