import ZenohProxy.Ppp.Link

/-!
# What the micro-controller prints

`toStdout` of `BytesToFrame` adds the number of the bytes it ignores to a string literal. That
moves a pointer into the literal, and past its end when there are more bytes than the literal
has letters. `reports_within_iff` says which bytes in which chunks keep every pointer inside.
-/

namespace ZenohProxy

/-- A pointer to a `char`: the array it starts from, and where it stands. -/
structure CharPtr where
  array : Bytes
  offset : Nat
  deriving DecidableEq

/-- It points to an element of its array. -/
def CharPtr.Within (p : CharPtr) : Prop := p.offset < p.array.length

/-- The literal, with the zero that ends it. -/
def ignoringBytes : Bytes := str "ignoring bytes : " ++ [0]

namespace BytesToFrame

/-- `"ignoring bytes : " + bs.size()`. -/
def report (bs : Bytes) : CharPtr := ⟨ignoringBytes, bs.length⟩

/-- The bytes that `toStdout` is given, where there are any. -/
def reported (os : List RxOutput) : List Bytes :=
  os.filterMap fun o =>
    match o with
    | .emit _ => none
    | .toStdout bs => some bs

/-- What `Serial.println` is given. -/
def printed (os : List RxOutput) : List CharPtr := (reported os).map report

/-- The chunks that end later than the timeout after the last flag. -/
def lateChunks (last : UInt64) : List Chunk → List Chunk
  | [] => []
  | c :: cs =>
    (if frameTimeout < c.done - lastFlagAfter last c.bytes then [c] else [])
      ++ lateChunks (lastFlagAfter last c.bytes) cs

theorem report_within_iff (bs : Bytes) : (report bs).Within ↔ bs.length ≤ 17 := by
  show bs.length < 18 ↔ _
  omega

/-! ## What is reported -/

theorem reported_append (os ps : List RxOutput) :
    reported (os ++ ps) = reported os ++ reported ps := List.filterMap_append

theorem reported_toStdout (bs : Bytes) :
    reported (toStdout bs) = if bs = [] then [] else [bs] := by
  rw [toStdout]
  split <;> rfl

/-- A segment that is reported at the flag that ends it. -/
def isReported (seg : Bytes) : Bool := seg ≠ [] && !(pppDeframe seg).1

theorem reported_handleByte (rx : FrameRx) (b : UInt8 × UInt64) :
    reported (rx.handleByte b).2
      = (Segments.step pppFlagChar rx.inputFrame (.symbol b.1)).2.filter isReported := by
  by_cases hflag : b.1 = pppFlagChar
  · simp only [FrameRx.handleByte, if_pos hflag, Segments.step, FrameRx.handleFrame]
    by_cases hempty : rx.inputFrame = []
    · rw [if_pos hempty, hempty]
      rfl
    · rw [if_neg hempty]
      cases hok : (pppDeframe rx.inputFrame).1 with
      | true => simp [reported, isReported, hok]
      | false => simp [reported_toStdout, isReported, hempty, hok]
  · simp [FrameRx.handleByte, hflag, Segments.step, reported]

theorem reported_handleBytes (rx : FrameRx) (bs : List (UInt8 × UInt64)) :
    reported (rx.handleBytes bs).2
      = (Segments.split pppFlagChar rx.inputFrame
          (Segments.symbols (bs.map Prod.fst))).2.filter isReported := by
  induction bs generalizing rx with
  | nil => rfl
  | cons b bs ih =>
    obtain ⟨hframe, -, -⟩ := rx.handleByte_eq b
    rw [FrameRx.handleBytes, Mealy.run_cons, reported_append, reported_handleByte]
    rw [show Segments.symbols ((b :: bs).map Prod.fst)
      = .symbol b.1 :: Segments.symbols (bs.map Prod.fst) from rfl, Segments.split_cons]
    rw [List.filter_append, ← hframe]
    exact congrArg _ (ih (rx.handleByte b).1)

/-- **One chunk**: the rejected segments are reported, and the chunk when it ends late. -/
theorem reported_handleRxd (rx : FrameRx) (c : Chunk) :
    reported (handleRxd rx c).2
      = (Segments.split pppFlagChar rx.inputFrame
          (chunkInputs rx.lastFrameFlag c)).2.filter isReported
        ++ if frameTimeout < c.done - lastFlagAfter rx.lastFrameFlag c.bytes
            ∧ c.bytes.map Prod.fst ≠ [] then [c.bytes.map Prod.fst] else [] := by
  obtain ⟨-, hlast, -⟩ := rx.handleBytes_eq c.bytes
  rw [chunkInputs, Segments.split_append]
  simp only [handleRxd, FrameRx.handleRxd, FrameRx.timedOut, hlast, decide_eq_true_eq]
  by_cases hlate : frameTimeout < c.done - lastFlagAfter rx.lastFrameFlag c.bytes
  · simp only [hlate, if_true, reported_append, reported_handleBytes, reported_toStdout,
      Segments.split_cons, Segments.step, Segments.split_nil, List.append_nil, true_and,
      ne_eq, ite_not]
  · simp only [hlate, if_false, reported_handleBytes, Segments.split_nil, List.append_nil,
      false_and]

/-- **A run** reports the rejected segments and the chunks that end late. -/
theorem mem_reported_run (rx : FrameRx) (cs : List Chunk) (bs : Bytes) :
    bs ∈ reported (Mealy.run handleRxd rx cs).2 ↔
      (bs ∈ (Segments.split pppFlagChar rx.inputFrame (splitInputs rx.lastFrameFlag cs)).2 ∧
          isReported bs) ∨
        bs ≠ [] ∧ ∃ c ∈ lateChunks rx.lastFrameFlag cs, bs = c.bytes.map Prod.fst := by
  induction cs generalizing rx with
  | nil => simp [reported, splitInputs, lateChunks]
  | cons c cs ih =>
    obtain ⟨hframe, hlast, -⟩ := FrameRx.handleRxd_eq (fun _ bs => bs) rx c
    have hrest := ih (handleRxd rx c).1
    rw [show (handleRxd rx c).1.inputFrame = _ from hframe,
      show (handleRxd rx c).1.lastFrameFlag = _ from hlast] at hrest
    have hlate : (∃ c' ∈ lateChunks rx.lastFrameFlag (c :: cs), bs = c'.bytes.map Prod.fst) ↔
        (frameTimeout < c.done - lastFlagAfter rx.lastFrameFlag c.bytes ∧
            bs = c.bytes.map Prod.fst) ∨
          ∃ c' ∈ lateChunks (lastFlagAfter rx.lastFrameFlag c.bytes) cs,
            bs = c'.bytes.map Prod.fst := by
      rw [lateChunks]
      split <;> simp [*]
    have hhere : bs ∈ reported (handleRxd rx c).2 ↔
        (bs ∈ (Segments.split pppFlagChar rx.inputFrame (chunkInputs rx.lastFrameFlag c)).2 ∧
            isReported bs) ∨
          bs ≠ [] ∧ frameTimeout < c.done - lastFlagAfter rx.lastFrameFlag c.bytes ∧
            bs = c.bytes.map Prod.fst := by
      rw [reported_handleRxd, List.mem_append, List.mem_filter]
      refine or_congr_right ?_
      split
      · rename_i hboth
        rw [List.mem_singleton]
        exact ⟨fun heq => ⟨heq ▸ hboth.2, hboth.1, heq⟩, fun h => h.2.2⟩
      · rename_i hboth
        simp only [List.not_mem_nil, false_iff]
        exact fun h => hboth ⟨h.2.1, h.2.2 ▸ h.1⟩
    rw [Mealy.run_cons, reported_append, List.mem_append, hrest, hhere, hlate, splitInputs,
      Segments.split_append, List.mem_append, or_or_or_comm, ← or_and_right, ← and_or_left]

/-! ## Where the pointers stand -/

/-- **When every pointer stays inside**: no segment that is rejected, and no chunk that ends
later than the timeout after the last flag, has more than 17 bytes. -/
theorem reports_within_iff (rx : FrameRx) (cs : List Chunk) :
    (∀ p ∈ printed (Mealy.run handleRxd rx cs).2, p.Within) ↔
      (∀ seg ∈ (Segments.split pppFlagChar rx.inputFrame (splitInputs rx.lastFrameFlag cs)).2,
        (pppDeframe seg).1 = false → seg.length ≤ 17) ∧
      ∀ c ∈ lateChunks rx.lastFrameFlag cs, c.bytes.length ≤ 17 := by
  rw [printed, List.forall_mem_map]
  simp only [report_within_iff, mem_reported_run]
  constructor
  · intro hall
    refine ⟨fun seg hseg hrejected => ?_, fun c hc => ?_⟩
    · by_cases hempty : seg = []
      · simp [hempty]
      · exact hall seg (.inl ⟨hseg, by simp [isReported, hempty, hrejected]⟩)
    · by_cases hempty : c.bytes.map Prod.fst = []
      · simp [List.map_eq_nil_iff.mp hempty]
      · simpa using hall _ (.inr ⟨hempty, c, hc, rfl⟩)
  · rintro ⟨hsegs, hchunks⟩ bs (⟨hseg, hreported⟩ | ⟨-, c, hc, rfl⟩)
    · simp only [isReported, Bool.and_eq_true, Bool.not_eq_true'] at hreported
      exact hsegs bs hseg hreported.2
    · simpa using hchunks c hc

/-- A line of text before a flag is reported with a pointer past the end of the literal. -/
theorem reports_beyond : ∃ p ∈ printed (Mealy.run handleRxd ⟨[], [], 0⟩
    [chunkAt 0 (str "no frame but log text" ++ [pppFlagChar])]).2, ¬ p.Within := by
  refine ⟨report (str "no frame but log text"), by decide +kernel, ?_⟩
  rw [report_within_iff]
  decide

end BytesToFrame

end ZenohProxy
