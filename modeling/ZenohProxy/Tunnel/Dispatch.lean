import ZenohProxy.Ppp.Acceptance
import ZenohProxy.Tunnel.Client

/-!
# The dispatch on the event

`handleFrame` of the client reads the first byte of each payload that `ppp_deframe` accepts.
The check sequence of nothing is zero, and the length that `ppp_deframe` wants is that of the
stuffed bytes; so two zeros with an escape before one of them are accepted as a frame without a
payload. `reads_within_iff` says that this is the only way to have the client read the first
byte of an empty vector.
-/

namespace ZenohProxy

namespace Client

/-- The vectors of which `handleFrame` reads the first byte. -/
def frameReads (bs : Bytes) : List Bytes :=
  if bs.length = 0 then [] else if (pppDeframe bs).1 then [(pppDeframe bs).2] else []

def byteReads (c : Client) (b : UInt8 × UInt64) : List Bytes :=
  if b.1 = pppFlagChar then frameReads c.inputFrame else []

/-- A byte, with what is read. -/
def readByte (c : Client) (b : UInt8 × UInt64) : Client × List Bytes :=
  (c.handleByte b, c.byteReads b)

/-- A chunk, with what is read. -/
def readRxd (c : Client) (bs : Chunk) : Client × List Bytes :=
  (c.handleRxd bs, (Mealy.run readByte c bs.bytes).2)

/-- The vectors of which the first byte is read while some chunks come in. -/
def reads (c : Client) (cs : List Chunk) : List Bytes := (Mealy.run readRxd c cs).2

theorem frameReads_eq (bs : Bytes) : frameReads bs = (accepted bs).toList := by
  rw [frameReads, accepted]
  by_cases hempty : bs.length = 0
  · rw [List.eq_nil_of_length_eq_zero hempty]
    rfl
  · rw [if_neg hempty]
    split <;> rfl

/-- Where a vector is read the event is its first byte, or what lies beyond it. -/
theorem handleFrame_of_reads (c : Client) {bs v : Bytes} (hreads : v ∈ frameReads bs) :
    c.handleFrame bs = c.handlePayload v := by
  rw [frameReads] at hreads
  split at hreads
  · cases hreads
  · rename_i hne
    split at hreads
    · rename_i hok
      rw [List.mem_singleton.mp hreads, handleFrame, if_neg hne]
      simp only [hok, if_true]
    · cases hreads

/-- Where none is read nothing is done but to keep what `ppp_deframe` has left. -/
theorem handleFrame_of_no_reads (c : Client) {bs : Bytes} (hreads : frameReads bs = []) :
    ∃ cleanData, c.handleFrame bs = ({ c with cleanData }, false) := by
  rw [frameReads] at hreads
  split at hreads
  · rename_i hempty
    exact ⟨c.cleanData, by rw [handleFrame, if_pos hempty]⟩
  · rename_i hne
    split at hreads
    · cases hreads
    · rename_i hok
      refine ⟨(pppDeframe bs).2, ?_⟩
      rw [handleFrame, if_neg hne]
      simp only [hok, Bool.false_eq_true, if_false]

/-! ## Refinement to the splitter, timeouts included -/

/-- What the splitter is fed for a chunk. -/
def chunkInputs (last : UInt64) (bs : Chunk) : List (Segments.Input UInt8) :=
  Segments.symbols (bs.bytes.map Prod.fst) ++
    if clientTimeout < bs.done - lastFlagAfter last bs.bytes then [.cut] else []

def splitInputs (last : UInt64) : List Chunk → List (Segments.Input UInt8)
  | [] => []
  | bs :: cs => chunkInputs last bs ++ splitInputs (lastFlagAfter last bs.bytes) cs

theorem readBytes_eq (c : Client) (bs : List (UInt8 × UInt64)) :
    (Mealy.run readByte c bs).2
      = (Segments.split pppFlagChar c.inputFrame
          (Segments.symbols (bs.map Prod.fst))).2.filterMap accepted := by
  induction bs generalizing c with
  | nil => rfl
  | cons b bs ih =>
    obtain ⟨hframe, -⟩ := c.handleByte_eq b
    have hbyte : c.byteReads b
        = (Segments.step pppFlagChar c.inputFrame (.symbol b.1)).2.filterMap accepted := by
      by_cases hflag : b.1 = pppFlagChar
      · rw [byteReads, if_pos hflag, frameReads_eq, Segments.step, if_pos hflag]
        cases haccepted : accepted c.inputFrame <;> simp [haccepted]
      · simp [byteReads, Segments.step, hflag]
    rw [Mealy.run_cons, ih, show Segments.symbols ((b :: bs).map Prod.fst)
      = .symbol b.1 :: Segments.symbols (bs.map Prod.fst) from rfl, Segments.split_cons,
      List.filterMap_append, ← hbyte, ← hframe]
    rfl

theorem handleRxd_eq (c : Client) (bs : Chunk) :
    (c.handleRxd bs).inputFrame
        = (Segments.split pppFlagChar c.inputFrame (chunkInputs c.lastFrameFlag bs)).1 ∧
      (c.handleRxd bs).lastFrameFlag = lastFlagAfter c.lastFrameFlag bs.bytes ∧
      (readRxd c bs).2
        = (Segments.split pppFlagChar c.inputFrame
            (chunkInputs c.lastFrameFlag bs)).2.filterMap accepted := by
  obtain ⟨hframe, -, hlast, -⟩ := handleBytes_eq bs.bytes c
  rw [readRxd, readBytes_eq, chunkInputs, Segments.split_append]
  simp only [handleRxd, hlast]
  by_cases htime : clientTimeout < bs.done - lastFlagAfter c.lastFrameFlag bs.bytes
  · simp [htime, Segments.split_cons, Segments.step]
  · simp [htime, hframe, hlast]

/-- The client is left as `handleRxd` leaves it. -/
theorem run_readRxd_fst (c : Client) (cs : List Chunk) :
    (Mealy.run readRxd c cs).1 = cs.foldl handleRxd c :=
  Mealy.run_fst c cs

/-- **Refinement.** Over any chunks the payloads of the accepted segments are read. -/
theorem reads_eq (c : Client) (cs : List Chunk) :
    c.reads cs = (Segments.split pppFlagChar c.inputFrame
      (splitInputs c.lastFrameFlag cs)).2.filterMap accepted := by
  induction cs generalizing c with
  | nil => rfl
  | cons bs cs ih =>
    obtain ⟨hframe, hlast, hreads⟩ := c.handleRxd_eq bs
    have hrest := ih (c.handleRxd bs)
    rw [hframe, hlast] at hrest
    rw [splitInputs, Segments.split_append, List.filterMap_append, ← hrest, ← hreads]
    rfl

end Client

/-! ## Frames without a payload -/

/-- Escapes and a zero, which is masked if there are escapes. -/
def zeroSpelling (escapes : Nat) : Bytes :=
  List.replicate escapes pppEscChar ++ [if 0 < escapes then pppMaskChar else 0]

/-- Two zeros, with an escape at least. -/
def SpellsEmpty (body : Bytes) : Prop :=
  ∃ a b, 0 < a + b ∧ body = zeroSpelling a ++ zeroSpelling b

theorem pppTrailer_nil : pppTrailer [] = [0, 0] := by decide

theorem unmasked_eq_zero_iff (masked : Prop) [Decidable masked] (x : UInt8) :
    (if masked then pppStuffing.mask x else x) = 0 ↔ x = if masked then pppMaskChar else 0 := by
  by_cases hmasked : masked
  · rw [if_pos hmasked, if_pos hmasked]
    exact ⟨fun h => by rw [← pppStuffing.mask_mask x, h]; rfl, fun h => by rw [h]; rfl⟩
  · rw [if_neg hmasked, if_neg hmasked]

/-- A zero in a stuffed text. -/
theorem unstuff_zero_iff {xs as : Bytes} {left : Bool} :
    pppStuffing.unstuff false xs = (0 :: as, left) ↔
      ∃ k rest, xs = zeroSpelling k ++ rest ∧ pppStuffing.unstuff false rest = (as, left) := by
  simp only [Stuffing.unstuff_eq_cons_iff, Bool.false_eq_true, false_or, unmasked_eq_zero_iff]
  constructor
  · rintro ⟨k, x, rest, rfl, -, rfl, hrest⟩
    exact ⟨k, rest, by simp [zeroSpelling, pppStuffing], hrest⟩
  · rintro ⟨k, rest, rfl, hrest⟩
    refine ⟨k, _, rest, by simp [zeroSpelling, pppStuffing], ?_, rfl, hrest⟩
    split <;> decide

theorem flag_not_mem_zeroSpelling (escapes : Nat) : pppFlagChar ∉ zeroSpelling escapes := by
  simp only [zeroSpelling, List.mem_append, List.mem_replicate, List.mem_singleton]
  split <;> simp [pppFlagChar, pppEscChar, pppMaskChar]

theorem length_zeroSpelling (escapes : Nat) : (zeroSpelling escapes).length = escapes + 1 := by
  simp [zeroSpelling]

theorem unstuff_spellsEmpty_iff (body : Bytes) :
    pppStuffing.unstuff false body = ([0, 0], false) ↔
      ∃ a b, body = zeroSpelling a ++ zeroSpelling b := by
  rw [unstuff_zero_iff]
  constructor
  · rintro ⟨a, rest, rfl, hrest⟩
    obtain ⟨b, rest, rfl, hnil⟩ := unstuff_zero_iff.mp hrest
    rw [(pppStuffing.unstuff_eq_nil_iff).mp hnil, List.append_nil]
    exact ⟨a, b, rfl⟩
  · rintro ⟨a, b, rfl⟩
    exact ⟨a, zeroSpelling b, rfl, unstuff_zero_iff.mpr ⟨b, [], by simp, rfl⟩⟩

/-- **What is accepted as nothing**: two zeros, one of which is escaped. -/
theorem pppDeframe_empty_iff (body : Bytes) :
    pppDeframe body = (true, []) ↔ SpellsEmpty body := by
  constructor
  · intro hacc
    obtain ⟨hflag, hlen⟩ := pppDeframe_accepts hacc
    rw [pppDeframe_eq hlen hflag, Prod.mk.injEq, Bool.and_eq_true, beq_iff_eq,
      Bool.not_eq_true'] at hacc
    obtain ⟨⟨hleft, hgood⟩, hdrop⟩ := hacc
    have hcontent := (result_good_iff _ _).mp ⟨hgood, hdrop⟩
    rw [pppTrailer_nil, List.nil_append] at hcontent
    obtain ⟨a, b, rfl⟩ := (unstuff_spellsEmpty_iff body).mp (Prod.ext hcontent hleft)
    rw [List.length_append, length_zeroSpelling, length_zeroSpelling] at hlen
    exact ⟨a, b, by omega, rfl⟩
  · rintro ⟨a, b, hescaped, rfl⟩
    have hlen : 3 ≤ (zeroSpelling a ++ zeroSpelling b).length := by
      rw [List.length_append, length_zeroSpelling, length_zeroSpelling]
      omega
    have hflag : pppFlagChar ∉ zeroSpelling a ++ zeroSpelling b := by
      simp [flag_not_mem_zeroSpelling]
    rw [pppDeframe_eq hlen hflag, (unstuff_spellsEmpty_iff _).mpr ⟨a, b, rfl⟩]
    decide

/-- **When the client reads a first byte that is there**: no segment between two flags, or
before the first, spells nothing. These are the bodies that `ppp_deframe` accepts without a
payload. -/
theorem reads_within_iff (c : Client) (cs : List Chunk) :
    ((∀ v ∈ c.reads cs, v ≠ []) ↔
        ∀ seg ∈ (Segments.split pppFlagChar c.inputFrame
          (Client.splitInputs c.lastFrameFlag cs)).2, ¬ SpellsEmpty seg) ∧
      ∀ body, pppDeframe body = (true, []) ↔ SpellsEmpty body := by
  refine ⟨?_, pppDeframe_empty_iff⟩
  rw [Client.reads_eq]
  constructor
  · intro hreads seg hseg hempty
    have haccepted := accepted_eq_some.mpr ((pppDeframe_empty_iff seg).mpr hempty)
    exact hreads [] (List.mem_filterMap.mpr ⟨seg, hseg, haccepted⟩) rfl
  · rintro hsegs v hv rfl
    obtain ⟨seg, hseg, haccepted⟩ := List.mem_filterMap.mp hv
    exact hsegs seg hseg ((pppDeframe_empty_iff seg).mp (accepted_eq_some.mp haccepted))

/-- `7E 7D 20 00 7E` makes the client read the first byte of an empty vector. -/
theorem reads_beyond : [] ∈ Client.reads ⟨[], [], 0, [], [], 0⟩
    [chunkAt 0 [0x7E, 0x7D, 0x20, 0x00, 0x7E]] ∧ pppDeframe [0x7D, 0x20, 0x00] = (true, []) := by
  decide

end ZenohProxy
