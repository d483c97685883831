import ZenohProxy.Lib.BrokenLines
import ZenohProxy.Ppp.Acceptance
import ZenohProxy.Ppp.Link

/-!
# Frames that come late

When a frame stalls the receiver drops what it has of it at the end of a chunk, and takes what
is still to come for a body of its own. So the end of a frame can pass for a frame.

`late_frames`: whatever the chunks and the clock, each frame gives at most one payload, which is
an end of its payload with the same check sequence (`EndsAs`). `exists_late_chunks`: each such
end does come out, on a line that stalls once. `exists_endsAs`: two octets are enough to make
any payload such an end.
-/

namespace ZenohProxy

/-- What a frame can give, come late: an end of its payload that has the same check sequence.
Where the line stalls behind an escape, the octet that follows stays masked. -/
structure EndsAs (p e : Bytes) : Prop where
  ne_nil : e ≠ []
  tail : e <:+ p ∨ ∃ x rest, x :: rest <:+ p ∧ (x = pppEscChar ∨ x = pppFlagChar) ∧
    e = (x ^^^ pppMaskChar) :: rest
  trailer : pppTrailer e = pppTrailer p

/-! ## Ends of a body -/

theorem accepted_content {seg e : Bytes} (h : accepted seg = some e) :
    3 ≤ seg.length ∧ pppStuffing.unstuff false seg = (e ++ pppTrailer e, false) := by
  have hacc := accepted_eq_some.mp h
  obtain ⟨hflag, hlen⟩ := pppDeframe_accepts hacc
  rw [pppDeframe_eq hlen hflag, Prod.mk.injEq, Bool.and_eq_true, beq_iff_eq,
    Bool.not_eq_true'] at hacc
  exact ⟨hlen, Prod.ext ((result_good_iff _ _).mp ⟨hacc.1.2, hacc.2⟩) hacc.1.1⟩

/-- A payload with its trailer at the end of another one. -/
theorem suffix_trailer {p e : Bytes} (h : e ++ pppTrailer e <:+ p ++ pppTrailer p) :
    e <:+ p ∧ pppTrailer e = pppTrailer p := by
  obtain ⟨before, hbefore⟩ := h
  rw [← List.append_assoc] at hbefore
  obtain ⟨hp, htrailer⟩ := List.append_inj' hbefore rfl
  exact ⟨⟨before, hp⟩, htrailer⟩

/-- **What the end of a body passes for.** -/
theorem endsAs_of_accepted {p e seg : Bytes} (hseg : seg <:+ pppBody p)
    (hacc : accepted seg = some e) : EndsAs p e := by
  obtain ⟨hlen, hcontent⟩ := accepted_content hacc
  rw [pppBody, Stuffing.suffix_stuff_iff] at hseg
  rcases hseg with ⟨ys, hys, rfl⟩ | ⟨x, ys, hys, hx, rfl⟩
  · rw [Stuffing.unstuff_stuff] at hcontent
    obtain rfl : ys = e ++ pppTrailer e := congrArg Prod.fst hcontent
    obtain ⟨htail, htrailer⟩ := suffix_trailer hys
    refine ⟨?_, .inl htail, htrailer⟩
    rintro rfl
    -- two zeros are too short
    exact absurd hlen (by decide)
  · rw [← Stuffing.stuff_mask_cons _ hx, Stuffing.unstuff_stuff] at hcontent
    have hcontent := congrArg Prod.fst hcontent
    cases e with
    | nil =>
      -- a masked copy is not zero
      have hzero : pppStuffing.mask x = 0 := List.head_eq_of_cons_eq hcontent
      rcases hx with rfl | rfl <;> exact absurd hzero (by decide)
    | cons e es =>
      obtain ⟨rfl, rfl⟩ := List.cons_eq_cons.mp hcontent
      obtain ⟨before, hbefore⟩ := hys
      have hends : (before ++ x :: es) ++ pppTrailer (pppStuffing.mask x :: es)
          = p ++ pppTrailer p := by
        rw [← hbefore, List.append_assoc]
        rfl
      obtain ⟨hp, htrailer⟩ := List.append_inj' hends rfl
      exact ⟨List.cons_ne_nil _ _, .inr ⟨x, es, ⟨before, hp⟩, hx, rfl⟩, htrailer⟩

/-- The body of what a frame can give is an end of the body of the frame. -/
theorem EndsAs.body {p e : Bytes} (h : EndsAs p e) : pppBody e <:+ pppBody p := by
  rw [pppBody, pppBody, Stuffing.suffix_stuff_iff]
  rcases h.tail with ⟨before, rfl⟩ | ⟨x, rest, ⟨before, rfl⟩, hx, rfl⟩
  · exact .inl ⟨_, ⟨before, by rw [h.trailer, List.append_assoc]⟩, rfl⟩
  · refine .inr ⟨x, rest ++ pppTrailer (before ++ x :: rest), ⟨before, ?_⟩, hx, ?_⟩
    · rw [List.append_assoc]
      rfl
    · rw [← Stuffing.stuff_mask_cons _ hx, h.trailer]
      rfl

/-! ## A stream of frames -/

/-- The stream as lines: an empty one before each body. -/
def pppLines (payloads : List Bytes) : List Bytes := payloads.flatMap fun p => [[], pppBody p]

theorem flag_not_mem_pppLines (payloads : List Bytes) :
    ∀ l ∈ pppLines payloads, pppFlagChar ∉ l := by
  intro l hl
  obtain ⟨p, -, hl⟩ := List.mem_flatMap.mp hl
  rcases List.mem_cons.mp hl with rfl | hl
  · exact List.not_mem_nil
  · rw [List.mem_singleton.mp hl]
    exact flag_not_mem_pppBody p

theorem pppFrames_eq_lines (payloads : List Bytes) :
    payloads.flatMap pppFrame = (pppLines payloads).flatMap (· ++ [pppFlagChar]) := by
  induction payloads with
  | nil => rfl
  | cons p payloads ih =>
    rw [pppLines, List.flatMap_cons, List.flatMap_cons, List.flatMap_append, ih, pppFrame_eq]
    simp [pppLines]

/-- Of the ends of the lines those are accepted that pass for frames. -/
theorem sublist_of_ends {payloads segs : List Bytes}
    (hsegs : List.Forall₂ (· <:+ ·) segs (pppLines payloads)) :
    List.SublistForall₂ (fun e p => EndsAs p e) (segs.filterMap accepted) payloads := by
  induction payloads generalizing segs with
  | nil =>
    cases hsegs
    exact .nil
  | cons p payloads ih =>
    rcases hsegs with _ | ⟨hempty, _ | ⟨hbody, hrest⟩⟩
    rw [List.suffix_nil.mp hempty, List.filterMap_cons_none accepted_nil]
    cases hacc : accepted _ with
    | none =>
      rw [List.filterMap_cons_none hacc]
      exact .cons_right (ih hrest)
    | some e =>
      rw [List.filterMap_cons_some hacc]
      exact .cons (endsAs_of_accepted hbody hacc) (ih hrest)

theorem sublistForall₂_of_prefix {α β : Type*} {R : α → β → Prop} {as as' : List α} {bs : List β}
    (hpre : as <+: as') (h : List.SublistForall₂ R as' bs) : List.SublistForall₂ R as bs := by
  obtain ⟨bs', hall, hsub⟩ := List.sublistForall₂_iff.mp h
  rw [List.prefix_iff_eq_take.mp hpre]
  exact List.sublistForall₂_iff.mpr
    ⟨_, List.forall₂_take as.length hall, (List.take_sublist _ _).trans hsub⟩

/-- The letters of the splitter's input are the bytes received. -/
theorem letters_splitInputs (last : UInt64) (cs : List Chunk) :
    Segments.letters (splitInputs last cs) = (stream cs).map Prod.fst := by
  induction cs generalizing last with
  | nil => rfl
  | cons c cs ih =>
    rw [splitInputs, Segments.letters_append, ih, chunkInputs, Segments.letters_append,
      Segments.letters_symbols, stream, stream, List.flatMap_cons, List.map_append]
    split
    · simp [Segments.letters]
    · simp [Segments.letters]

/-- **What late frames give.** Frames are sent, and nothing is kept at first. Whatever the
chunks and the clock, at every moment the payloads that have come out are, in order, ends of
payloads that were sent, at most one of each, with the same check sequence. -/
theorem late_frames (report : Bytes → Bytes → Bytes) (rx : FrameRx) (hrx : rx.inputFrame = [])
    (cs : List Chunk) (payloads : List Bytes)
    (hbytes : (stream cs).map Prod.fst <+: payloads.flatMap pppFrame) :
    List.SublistForall₂ (fun e p => EndsAs p e)
      (emitted (Mealy.run (FrameRx.handleRxd report) rx cs).2) payloads := by
  obtain ⟨rest, hrest⟩ := hbytes
  rw [(emitted_eq_split report cs rx).2, hrx]
  -- as if the rest came at once
  have hletters : Segments.letters (splitInputs rx.lastFrameFlag cs ++ Segments.symbols rest)
      = (pppLines payloads).flatMap (· ++ [pppFlagChar]) := by
    rw [Segments.letters_append, letters_splitInputs, Segments.letters_symbols, hrest,
      pppFrames_eq_lines]
  have hends := Segments.split_lines pppFlagChar (flag_not_mem_pppLines payloads) hletters
  have hsofar := Segments.split_prefix pppFlagChar []
    (List.prefix_append (splitInputs rx.lastFrameFlag cs) (Segments.symbols rest))
  exact sublistForall₂_of_prefix (hsofar.filterMap accepted) (sublist_of_ends hends)

/-- A frame that stalls, of which two octets out of three are dropped. -/
theorem late_frames_one : ∃ cs : List Chunk,
    emitted (Mealy.run FrameExtractor.handleRxd ⟨[], [], 0⟩ cs).2 = [[7]] ∧
      List.SublistForall₂ (fun e p => EndsAs p e)
        (emitted (Mealy.run FrameExtractor.handleRxd ⟨[], [], 0⟩ cs).2) [[0xDE, 0x0C, 7]] := by
  let cs : List Chunk := [⟨[(0x7E, 0)], 0⟩, ⟨[(0xDE, 1001), (0x0C, 1001)], 1001⟩,
    ⟨(pppBody [7] ++ [0x7E]).map fun b => (b, 1001), 1001⟩]
  have hbytes : (stream cs).map Prod.fst <+: [[0xDE, 0x0C, 7]].flatMap pppFrame := by
    decide +kernel
  exact ⟨cs, by decide +kernel, late_frames _ ⟨[], [], 0⟩ rfl cs _ hbytes⟩

/-! ## Where the line stalls -/

/-- Octets that are read at one moment. -/
def readAt (t : UInt64) (bs : Bytes) : List (UInt8 × UInt64) := bs.map fun b => (b, t)

theorem lastFlagAfter_of_not_mem {t : UInt64} {bs : Bytes} (hflag : pppFlagChar ∉ bs)
    (last : UInt64) : lastFlagAfter last (readAt t bs) = last := by
  induction bs with
  | nil => rfl
  | cons b bs ih =>
    obtain ⟨hb, hrest⟩ := not_or.mp (List.mem_cons.not.mp hflag)
    rw [readAt, List.map_cons, lastFlagAfter, if_neg (Ne.symm hb)]
    exact ih hrest

theorem lastFlagAfter_readAt {t : UInt64} {bs : Bytes} (hflag : pppFlagChar ∈ bs) (last : UInt64) :
    lastFlagAfter last (readAt t bs) = t := by
  induction bs generalizing last with
  | nil => cases hflag
  | cons b bs ih =>
    rw [readAt, List.map_cons, lastFlagAfter]
    by_cases hmem : pppFlagChar ∈ bs
    · exact ih hmem _
    · obtain rfl := (List.mem_cons.mp hflag).resolve_right hmem
      rw [if_pos rfl]
      exact lastFlagAfter_of_not_mem hmem t

/-- Behind a flag the line stalls for more than a second. What comes then is dropped up to the
end of its chunk. -/
def stalledChunks (lost rest : Bytes) : List Chunk :=
  ⟨readAt 0 [pppFlagChar], 0⟩ ::
    ((if lost = [] then [] else [⟨readAt 1001 lost, 1001⟩]) ++ [⟨readAt 1001 rest, 1001⟩])

theorem stream_stalledChunks (lost rest : Bytes) :
    (stream (stalledChunks lost rest)).map Prod.fst = pppFlagChar :: (lost ++ rest) := by
  rw [stalledChunks]
  split
  · simp [stream, readAt, Function.comp_def, *]
  · simp [stream, readAt, Function.comp_def]

theorem bytes_ne_nil_of_mem_stalledChunks {lost rest : Bytes} (hrest : rest ≠ []) :
    ∀ c ∈ stalledChunks lost rest, c.bytes ≠ [] := by
  rw [stalledChunks]
  split <;> simp [readAt, *]

theorem readings_stalledChunks (lost rest : Bytes) :
    (readings (stalledChunks lost rest)).Pairwise (· ≤ ·) := by
  have hafter : ∃ n, readings (stalledChunks lost rest)
      = [0, 0] ++ List.replicate n 1001 := by
    rw [stalledChunks]
    split
    · refine ⟨rest.length + 1, ?_⟩
      simp [readings, readAt, Function.comp_def, List.map_const', List.replicate_succ']
    · refine ⟨lost.length + 1 + (rest.length + 1), ?_⟩
      rw [← List.replicate_append_replicate]
      simp [readings, readAt, Function.comp_def, List.map_const', List.replicate_succ']
  obtain ⟨n, hreadings⟩ := hafter
  rw [hreadings, List.pairwise_append]
  refine ⟨by decide, List.pairwise_replicate.mpr (.inr (UInt64.le_refl 1001)),
    fun t ht t' ht' => ?_⟩
  rw [List.eq_of_mem_replicate ht']
  have hzero : t = 0 := by simpa using ht
  rw [hzero]
  decide

/-- The body comes out and what is before it in the frame does not. -/
theorem split_stalledChunks {lost body : Bytes} (hlost : pppFlagChar ∉ lost)
    (hbody : pppFlagChar ∉ body) (last : UInt64) :
    Segments.split pppFlagChar []
        (splitInputs last (stalledChunks lost (body ++ [pppFlagChar]))) = ([], [[], body]) := by
  have hclosed : Segments.split pppFlagChar [] (Segments.symbols (body ++ [pppFlagChar]))
      = ([], [body]) := by
    rw [Segments.symbols_append, Segments.split_append, Segments.split_ordinary _ hbody]
    rfl
  have hend (last : UInt64) : splitInputs last [⟨readAt 1001 (body ++ [pppFlagChar]), 1001⟩]
      = Segments.symbols (body ++ [pppFlagChar]) := by
    rw [splitInputs, splitInputs, chunkInputs, lastFlagAfter_readAt (by simp)]
    simp [readAt, Function.comp_def, frameTimeout]
  have hopened : chunkInputs last ⟨readAt 0 [pppFlagChar], 0⟩ = [.symbol pppFlagChar] := by
    simp [chunkInputs, readAt, lastFlagAfter, Segments.symbols]
  have hlast : lastFlagAfter last (readAt 0 [pppFlagChar]) = 0 := rfl
  have hfirst : Segments.split pppFlagChar [] [.symbol pppFlagChar] = ([], [[]]) := rfl
  rw [stalledChunks, splitInputs, hopened, hlast, Segments.split_append, hfirst]
  by_cases hnone : lost = []
  · rw [if_pos hnone, List.nil_append, hend, hclosed]
    rfl
  · have hdropped : chunkInputs 0 ⟨readAt 1001 lost, 1001⟩
        = Segments.symbols lost ++ [.cut] := by
      rw [chunkInputs, lastFlagAfter_of_not_mem hlost]
      simp [readAt, Function.comp_def, frameTimeout]
    rw [if_neg hnone, List.singleton_append, splitInputs, hend, hdropped, List.append_assoc,
      Segments.split_append, Segments.split_ordinary _ hlost, List.singleton_append,
      Segments.split_cons, Segments.step, hclosed]
    rfl

theorem emitted_stalledChunks {lost e : Bytes} (hlost : pppFlagChar ∉ lost) (hne : e ≠ [])
    (report : Bytes → Bytes → Bytes) {rx : FrameRx} (hrx : rx.inputFrame = []) :
    emitted (Mealy.run (FrameRx.handleRxd report) rx
      (stalledChunks lost (pppBody e ++ [pppFlagChar]))).2 = [e] := by
  rw [(emitted_eq_split report _ rx).2, hrx, split_stalledChunks hlost (flag_not_mem_pppBody e)]
  show List.filterMap accepted [[], pppBody e] = [e]
  rw [List.filterMap_cons_none accepted_nil, List.filterMap_cons_some (accepted_pppBody hne),
    List.filterMap_nil]

/-- **Each end of a frame comes out** when the line stalls behind its flag, and then goes on with
a chunk that ends where that end starts. -/
theorem exists_late_chunks {p e : Bytes} (h : EndsAs p e) :
    ∃ cs : List Chunk, (readings cs).Pairwise (· ≤ ·) ∧ (∀ c ∈ cs, c.bytes ≠ []) ∧
      (stream cs).map Prod.fst = pppFrame p ∧
      ∀ (report : Bytes → Bytes → Bytes) (rx : FrameRx), rx.inputFrame = [] →
        emitted (Mealy.run (FrameRx.handleRxd report) rx cs).2 = [e] := by
  obtain ⟨lost, hlost⟩ := h.body
  have hflag : pppFlagChar ∉ lost := fun hmem =>
    flag_not_mem_pppBody p (hlost ▸ List.mem_append_left _ hmem)
  refine ⟨stalledChunks lost (pppBody e ++ [pppFlagChar]), readings_stalledChunks _ _, ?_, ?_,
    fun report rx hrx => ?_⟩
  · exact bytes_ne_nil_of_mem_stalledChunks (by simp)
  · rw [stream_stalledChunks, pppFrame_eq, ← hlost, List.append_assoc]
  · exact emitted_stalledChunks hflag h.ne_nil report hrx

/-! ## What a payload can hide -/

/-- The word that sixteen shifts turn into all ones. -/
def resetWord : BitVec 16 := 0xF321

/-- **Two octets set the check sequence back.** -/
theorem exists_resets (f : Fcs) : ∃ w : Bytes, w.length = 2 ∧ f.writes w = Fcs.init := by
  let word := f.fcs ^^^ resetWord
  have hword : f.fcs ^^^ word = resetWord := by
    rw [← BitVec.xor_assoc, BitVec.xor_self, BitVec.zero_xor]
  have hreset : ((f.write (fcsLow word)).write (fcsHigh word)).fcs = 0xFFFF := by
    rw [Fcs.write_eq_byteStep, Fcs.write_eq_byteStep, fcsLow, fcsHigh, Crc.word_absorb, hword]
    decide +kernel
  exact ⟨[fcsLow word, fcsHigh word], rfl, congrArg Fcs.mk hreset⟩

/-- Behind any octets a payload can be hidden, at the cost of two more. -/
theorem exists_endsAs (head : Bytes) {e : Bytes} (hne : e ≠ []) :
    ∃ w : Bytes, w.length = 2 ∧ EndsAs (head ++ w ++ e) e := by
  obtain ⟨w, hlen, hreset⟩ := exists_resets (Fcs.init.writes head)
  refine ⟨w, hlen, hne, .inl (List.suffix_append _ _), ?_⟩
  have hwrites : Fcs.init.writes (head ++ w ++ e) = Fcs.init.writes e := by
    rw [Fcs.writes, List.foldl_append, List.foldl_append]
    exact congrArg (fun f : Fcs => f.writes e) hreset
  rw [pppTrailer, pppTrailer, hwrites]

end ZenohProxy
