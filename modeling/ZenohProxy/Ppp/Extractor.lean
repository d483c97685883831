import ZenohProxy.Ppp.Frame
import ZenohProxy.Lib.Segments

/-!
# The frame extractor

`FrameExtractor` of `common/Frame.cpp` cuts the received bytes at the flags, emits the
payload of each body that `ppp_deframe` accepts and sends every other byte to stdout. After
each chunk it drops what it has kept when the last flag is more than a timeout ago. The
micro-controller's `BytesToFrame` (`zenoh-arduino/src/BrokerSerial.h`) is the same code but
for what it reports at the timeout, so both are one receiver with a parameter.

`emitted_eq_split` refines the receiver to the splitter of `Lib/Segments.lean`: it emits the
accepted segments, and the timeout is its cut.
-/

namespace ZenohProxy

/-- A chunk of received bytes: each byte with what `Sys::millis()` returns should it be read
at that byte, and what it returns after the last one. -/
structure Chunk where
  bytes : List (UInt8 × UInt64)
  done : UInt64

/-- What a receiver puts out: a payload to its listeners, or bytes it reports as not being
a frame. -/
inductive RxOutput where
  | emit (payload : Bytes)
  | toStdout (bs : Bytes)
  deriving DecidableEq

/-- `toStdout` does nothing for an empty vector. -/
def toStdout (bs : Bytes) : List RxOutput := if bs = [] then [] else [.toStdout bs]

/-- The members of a receiver. -/
structure FrameRx where
  inputFrame : Bytes
  cleanData : Bytes
  lastFrameFlag : UInt64

def frameTimeout : UInt64 := 1000

namespace FrameRx

/-- `handleFrame(_inputFrame)`. -/
def handleFrame (rx : FrameRx) : FrameRx × List RxOutput :=
  if rx.inputFrame = [] then (rx, [])
  else
    let (ok, out) := pppDeframe rx.inputFrame
    ({ rx with cleanData := out }, if ok then [.emit out] else toStdout rx.inputFrame)

/-- The body of the loop of `handleRxd`. -/
def handleByte (rx : FrameRx) (b : UInt8 × UInt64) : FrameRx × List RxOutput :=
  if b.1 = pppFlagChar then
    let r := handleFrame { rx with lastFrameFlag := b.2 }
    ({ r.1 with inputFrame := [] }, r.2)
  -- any other byte is kept until the next flag
  else ({ rx with inputFrame := rx.inputFrame ++ [b.1] }, [])

/-- The loop of `handleRxd`. -/
def handleBytes (rx : FrameRx) (bs : List (UInt8 × UInt64)) : FrameRx × List RxOutput :=
  Mealy.run handleByte rx bs

/-- The test after the loop, on unsigned 64-bit readings. -/
def timedOut (rx : FrameRx) (now : UInt64) : Bool := frameTimeout < now - rx.lastFrameFlag

/-- `handleRxd`; `report` picks what goes to `toStdout` at the timeout, from the kept bytes
and the chunk. -/
def handleRxd (report : Bytes → Bytes → Bytes) (rx : FrameRx) (c : Chunk) :
    FrameRx × List RxOutput :=
  let r := rx.handleBytes c.bytes
  if r.1.timedOut c.done then
    ({ r.1 with inputFrame := [] },
      r.2 ++ toStdout (report r.1.inputFrame (c.bytes.map Prod.fst)))
  else r

end FrameRx

/-- `FrameExtractor::handleRxd` reports the bytes it drops. -/
def FrameExtractor.handleRxd : FrameRx → Chunk → FrameRx × List RxOutput :=
  FrameRx.handleRxd fun inputFrame _ => inputFrame

/-- `BytesToFrame::handleRxd` reports the whole chunk. -/
def BytesToFrame.handleRxd : FrameRx → Chunk → FrameRx × List RxOutput :=
  FrameRx.handleRxd fun _ bs => bs

/-! ## Emitted payloads -/

/-- The payloads among the outputs, in order. -/
def emitted : List RxOutput → List Bytes
  | [] => []
  | .emit p :: os => p :: emitted os
  | .toStdout _ :: os => emitted os

@[simp] theorem emitted_append (os ps : List RxOutput) :
    emitted (os ++ ps) = emitted os ++ emitted ps := by
  induction os with
  | nil => rfl
  | cons o os ih => cases o <;> simp [emitted, ih]

@[simp] theorem emitted_toStdout (bs : Bytes) : emitted (toStdout bs) = [] := by
  unfold toStdout
  split <;> rfl

/-- What `ppp_deframe` makes of a segment. -/
def accepted (seg : Bytes) : Option Bytes :=
  if (pppDeframe seg).1 then some (pppDeframe seg).2 else none

theorem accepted_eq_some {seg p : Bytes} : accepted seg = some p ↔ pppDeframe seg = (true, p) := by
  unfold accepted
  constructor
  · intro h
    split at h
    · rename_i hok
      exact Prod.ext hok (Option.some.inj h)
    · cases h
  · intro h
    simp [h]

@[simp] theorem accepted_nil : accepted [] = none := rfl

theorem accepted_pppBody {p : Bytes} (hne : p ≠ []) : accepted (pppBody p) = some p :=
  accepted_eq_some.mpr (pppDeframe_pppBody hne)

/-! ## Refinement to the splitter -/

/-- The last flag seen, after some bytes. -/
def lastFlagAfter (last : UInt64) : List (UInt8 × UInt64) → UInt64
  | [] => last
  | b :: bs => lastFlagAfter (if b.1 = pppFlagChar then b.2 else last) bs

/-- What the splitter is fed for a chunk: its bytes, and a cut at a timeout. -/
def chunkInputs (last : UInt64) (c : Chunk) : List (Segments.Input UInt8) :=
  Segments.symbols (c.bytes.map Prod.fst) ++
    if frameTimeout < c.done - lastFlagAfter last c.bytes then [.cut] else []

/-- The same for a list of chunks. -/
def splitInputs (last : UInt64) : List Chunk → List (Segments.Input UInt8)
  | [] => []
  | c :: cs => chunkInputs last c ++ splitInputs (lastFlagAfter last c.bytes) cs

theorem FrameRx.handleByte_eq (rx : FrameRx) (b : UInt8 × UInt64) :
    (rx.handleByte b).1.inputFrame
        = (Segments.step pppFlagChar rx.inputFrame (.symbol b.1)).1
      ∧ (rx.handleByte b).1.lastFrameFlag = (if b.1 = pppFlagChar then b.2 else rx.lastFrameFlag)
      ∧ emitted (rx.handleByte b).2
        = (Segments.step pppFlagChar rx.inputFrame (.symbol b.1)).2.filterMap accepted := by
  by_cases hb : b.1 = pppFlagChar
  -- at a flag nothing is emitted for an empty body, which is not accepted either
  · by_cases hempty : rx.inputFrame = []
    · simp [handleByte, handleFrame, Segments.step, hb, hempty, emitted]
    · cases hok : (pppDeframe rx.inputFrame).1 <;>
        simp [handleByte, handleFrame, Segments.step, hb, hempty, hok, emitted, accepted]
  · simp [handleByte, Segments.step, hb, emitted]

theorem FrameRx.handleBytes_eq (bs : List (UInt8 × UInt64)) (rx : FrameRx) :
    (rx.handleBytes bs).1.inputFrame
        = (Segments.split pppFlagChar rx.inputFrame (Segments.symbols (bs.map Prod.fst))).1
      ∧ (rx.handleBytes bs).1.lastFrameFlag = lastFlagAfter rx.lastFrameFlag bs
      ∧ emitted (rx.handleBytes bs).2
        = (Segments.split pppFlagChar rx.inputFrame
            (Segments.symbols (bs.map Prod.fst))).2.filterMap accepted := by
  induction bs generalizing rx with
  | nil => exact ⟨rfl, rfl, rfl⟩
  | cons b bs ih =>
    obtain ⟨hframe, hlast, hout⟩ := rx.handleByte_eq b
    obtain ⟨hframes, hlasts, houts⟩ := ih (rx.handleByte b).1
    rw [handleBytes, Mealy.run_cons]
    rw [show Segments.symbols ((b :: bs).map Prod.fst)
      = .symbol b.1 :: Segments.symbols (bs.map Prod.fst) from rfl, Segments.split_cons]
    rw [hframe] at hframes houts
    refine ⟨hframes, ?_, ?_⟩
    · rw [lastFlagAfter, ← hlast]
      exact hlasts
    · rw [emitted_append, List.filterMap_append, hout]
      exact congrArg _ houts

/-- One chunk: the receiver keeps what the splitter keeps and emits the accepted segments. -/
theorem FrameRx.handleRxd_eq (report : Bytes → Bytes → Bytes) (rx : FrameRx) (c : Chunk) :
    (handleRxd report rx c).1.inputFrame
        = (Segments.split pppFlagChar rx.inputFrame (chunkInputs rx.lastFrameFlag c)).1
      ∧ (handleRxd report rx c).1.lastFrameFlag = lastFlagAfter rx.lastFrameFlag c.bytes
      ∧ emitted (handleRxd report rx c).2
        = (Segments.split pppFlagChar rx.inputFrame
            (chunkInputs rx.lastFrameFlag c)).2.filterMap accepted := by
  obtain ⟨hframe, hlast, hout⟩ := rx.handleBytes_eq c.bytes
  rw [chunkInputs, Segments.split_append]
  simp only [handleRxd, timedOut, hlast, decide_eq_true_eq]
  -- the test after the loop looks at the last flag the bytes left
  by_cases ht : frameTimeout < c.done - lastFlagAfter rx.lastFrameFlag c.bytes
  · simp [ht, hout, Segments.split_cons, Segments.step]
  · simp [ht, hframe, hlast, hout]

/-- **Refinement.** Over any chunks the receiver keeps what the splitter keeps and emits the
accepted segments, the timeouts being the cuts. -/
theorem emitted_eq_split (report : Bytes → Bytes → Bytes) (cs : List Chunk) (rx : FrameRx) :
    (Mealy.run (FrameRx.handleRxd report) rx cs).1.inputFrame
        = (Segments.split pppFlagChar rx.inputFrame (splitInputs rx.lastFrameFlag cs)).1
      ∧ emitted (Mealy.run (FrameRx.handleRxd report) rx cs).2
        = (Segments.split pppFlagChar rx.inputFrame
            (splitInputs rx.lastFrameFlag cs)).2.filterMap accepted := by
  induction cs generalizing rx with
  | nil => exact ⟨rfl, rfl⟩
  | cons c cs ih =>
    obtain ⟨hframe, hlast, hout⟩ := FrameRx.handleRxd_eq report rx c
    obtain ⟨hframes, houts⟩ := ih (FrameRx.handleRxd report rx c).1
    rw [hframe, hlast] at hframes houts
    rw [Mealy.run_cons, splitInputs, Segments.split_append]
    refine ⟨hframes, ?_⟩
    rw [emitted_append, List.filterMap_append, hout, houts]

end ZenohProxy
