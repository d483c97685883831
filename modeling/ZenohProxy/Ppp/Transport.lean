import ZenohProxy.Ppp.Extractor

/-!
# Framed transport over a noisy stream

A stream is noise, a frame, noise, a frame and so on. It arrives in chunks, cut anywhere,
with a clock that never goes back. `framed_transport` says what a receiver emits: each
payload once and in order, and between them only what it can read out of one stretch of
noise, never bytes of a frame.

The proof reads the chunks as one list of events, bytes and chunk ends, in which the bytes
of a frame stand next to each other but for chunk ends that come in time. Those leave no
cut, so the splitter hands over the body whole (`Segments.split_framed`).
-/

namespace ZenohProxy

/-- The received bytes with their clock readings. -/
def stream (cs : List Chunk) : List (UInt8 × UInt64) := cs.flatMap Chunk.bytes

/-- All clock readings, in the order they are taken. -/
def readings (cs : List Chunk) : List UInt64 :=
  cs.flatMap fun c => c.bytes.map Prod.snd ++ [c.done]

/-- Frames, each with its payload and the noise that follows it. -/
abbrev Frames := List (Bytes × Bytes)

/-- Noise, then frames with noise after each. -/
def noisy (noise : Bytes) (frames : Frames) : Bytes :=
  noise ++ frames.flatMap fun f => pppFrame f.1 ++ f.2

/-- The positions of the two flags of each frame, the first frame starting at `base`. -/
def flagPositions (base : Nat) : Frames → List (Nat × Nat)
  | [] => []
  | f :: fs =>
    (base, base + (pppFrame f.1).length - 1)
      :: flagPositions (base + (pppFrame f.1).length + f.2.length) fs

/-- Every chunk that ends after the opening flag of a frame and before its closing flag is
done within the timeout of that opening flag. -/
def Timely (cs : List Chunk) (flags : List (Nat × Nat)) : Prop :=
  ∀ before c after, cs = before ++ c :: after →
    ∀ f ∈ flags, f.1 < (stream (before ++ [c])).length → (stream (before ++ [c])).length ≤ f.2 →
      ∀ b, (stream cs)[f.1]? = some b → c.done.toNat ≤ b.2.toNat + frameTimeout.toNat

/-- `p` is what `ppp_deframe` makes of a contiguous flag-free piece of `noise`. -/
def FromNoise (noise p : Bytes) : Prop :=
  ∃ piece, piece <:+: noise ∧ pppFlagChar ∉ piece ∧ pppDeframe piece = (true, p)

/-- The emissions for a list of frames: each payload, followed by what the noise after its
frame gives. -/
inductive Delivers : Frames → List Bytes → Prop where
  | nil : Delivers [] []
  | cons {p noise : Bytes} {fs : Frames} {extra out : List Bytes}
      (hextra : ∀ q ∈ extra, FromNoise noise q) (hrest : Delivers fs out) :
      Delivers ((p, noise) :: fs) (p :: (extra ++ out))

/-! ## Chunks as events -/

/-- A received byte with its reading, or the end of a chunk. -/
inductive RxEvent where
  | byte (b : UInt8 × UInt64)
  | chunkEnd (now : UInt64)

def Chunk.events (c : Chunk) : List RxEvent := c.bytes.map .byte ++ [.chunkEnd c.done]

def allEvents (cs : List Chunk) : List RxEvent := cs.flatMap Chunk.events

/-- The bytes of a list of events, with their readings. -/
def stamped : List RxEvent → List (UInt8 × UInt64)
  | [] => []
  | .byte b :: es => b :: stamped es
  | .chunkEnd _ :: es => stamped es

/-- The bytes of a list of events. -/
def letters (es : List RxEvent) : Bytes := (stamped es).map Prod.fst

def RxEvent.reading : RxEvent → UInt64
  | .byte b => b.2
  | .chunkEnd now => now

@[simp] theorem stamped_append (es fs : List RxEvent) :
    stamped (es ++ fs) = stamped es ++ stamped fs := by
  induction es with
  | nil => rfl
  | cons e es ih => cases e <;> simp [stamped, ih]

@[simp] theorem letters_append (es fs : List RxEvent) :
    letters (es ++ fs) = letters es ++ letters fs := by
  rw [letters, stamped_append, List.map_append, letters, letters]

@[simp] theorem stamped_bytes (bs : List (UInt8 × UInt64)) : stamped (bs.map .byte) = bs := by
  induction bs with
  | nil => rfl
  | cons b bs ih => simpa [stamped] using ih

theorem stamped_allEvents (cs : List Chunk) : stamped (allEvents cs) = stream cs := by
  induction cs with
  | nil => rfl
  | cons c cs ih =>
    rw [allEvents, List.flatMap_cons, stamped_append, ← allEvents, ih, Chunk.events,
      stamped_append, stamped_bytes]
    simp [stamped, stream]

theorem map_reading_allEvents (cs : List Chunk) :
    (allEvents cs).map RxEvent.reading = readings cs := by
  induction cs with
  | nil => rfl
  | cons c cs ih =>
    rw [allEvents, List.flatMap_cons, List.map_append, ← allEvents, ih]
    simp [Chunk.events, RxEvent.reading, readings, Function.comp_def]

/-- What the splitter is fed for a list of events, the last flag being known. -/
def eventInputs (last : UInt64) : List RxEvent → List (Segments.Input UInt8)
  | [] => []
  | .byte b :: es =>
    .symbol b.1 :: eventInputs (if b.1 = pppFlagChar then b.2 else last) es
  | .chunkEnd now :: es =>
    (if frameTimeout < now - last then [.cut] else []) ++ eventInputs last es

theorem eventInputs_bytes (last : UInt64) (bs : List (UInt8 × UInt64)) (es : List RxEvent) :
    eventInputs last (bs.map .byte ++ es)
      = Segments.symbols (bs.map Prod.fst) ++ eventInputs (lastFlagAfter last bs) es := by
  induction bs generalizing last with
  | nil => rfl
  | cons b bs ih =>
    rw [List.map_cons, List.cons_append, eventInputs, ih]
    rfl

theorem splitInputs_eq (last : UInt64) (cs : List Chunk) :
    splitInputs last cs = eventInputs last (allEvents cs) := by
  induction cs generalizing last with
  | nil => rfl
  | cons c cs ih =>
    rw [splitInputs, allEvents, List.flatMap_cons, ← allEvents, Chunk.events,
      List.append_assoc, eventInputs_bytes, chunkInputs, ih, List.append_assoc]
    rfl

theorem letters_eventInputs (last : UInt64) (es : List RxEvent) :
    Segments.letters (eventInputs last es) = letters es := by
  induction es generalizing last with
  | nil => rfl
  | cons e es ih =>
    cases e with
    | byte b => simp [eventInputs, Segments.letters, ih, letters, stamped]
    | chunkEnd now =>
      rw [eventInputs, Segments.letters_append, ih]
      split <;> simp [Segments.letters, letters, stamped]

/-- The last flag seen, after some events. -/
def lastFlag (last : UInt64) (es : List RxEvent) : UInt64 := lastFlagAfter last (stamped es)

theorem eventInputs_append (last : UInt64) (es fs : List RxEvent) :
    eventInputs last (es ++ fs) = eventInputs last es ++ eventInputs (lastFlag last es) fs := by
  induction es generalizing last with
  | nil => rfl
  | cons e es ih =>
    cases e with
    | byte b => simp [eventInputs, ih, lastFlag, stamped, lastFlagAfter]
    | chunkEnd now => simp [eventInputs, ih, lastFlag, stamped]

/-- Chunk ends in time leave no cut between bytes that hold no flag. -/
theorem eventInputs_body {body : Bytes} (hbody : pppFlagChar ∉ body) {last : UInt64}
    {es : List RxEvent} (hbytes : letters es = body)
    (htime : ∀ now, .chunkEnd now ∈ es → ¬ frameTimeout < now - last) :
    eventInputs last es = Segments.symbols body ∧ lastFlag last es = last := by
  induction es generalizing body with
  | nil =>
    subst hbytes
    exact ⟨rfl, rfl⟩
  | cons e es ih =>
    have htail (now : UInt64) (h : .chunkEnd now ∈ es) : ¬ frameTimeout < now - last :=
      htime now (List.mem_cons_of_mem e h)
    cases e with
    | byte b =>
      have hb : body = b.1 :: letters es := by simpa [letters, stamped] using hbytes.symm
      rw [hb, List.mem_cons, not_or] at hbody
      have hne : ¬ b.1 = pppFlagChar := fun h => hbody.1 h.symm
      obtain ⟨hin, hlast⟩ := ih hbody.2 rfl htail
      rw [lastFlag] at hlast
      simp [eventInputs, lastFlag, stamped, lastFlagAfter, hne, hin, hlast, hb, Segments.symbols]
    | chunkEnd now =>
      have hnow := htime now List.mem_cons_self
      obtain ⟨hin, hlast⟩ := ih hbody (by simpa [letters, stamped] using hbytes) htail
      rw [lastFlag] at hlast
      simp [eventInputs, lastFlag, stamped, hnow, hin, hlast]

/-! ## Cutting the events at a byte -/

/-- The events split where a given byte of the stream stands. -/
theorem events_split {es : List RxEvent} {xs ys : List (UInt8 × UInt64)} {b : UInt8 × UInt64}
    (h : stamped es = xs ++ b :: ys) :
    ∃ fs gs, es = fs ++ .byte b :: gs ∧ stamped fs = xs ∧ stamped gs = ys := by
  induction es generalizing xs with
  | nil => simp [stamped] at h
  | cons e es ih =>
    cases e with
    | chunkEnd now =>
      obtain ⟨fs, gs, rfl, hfs, hgs⟩ := ih (by simpa [stamped] using h)
      exact ⟨.chunkEnd now :: fs, gs, rfl, by simpa [stamped] using hfs, hgs⟩
    | byte c =>
      cases xs with
      | nil =>
        simp only [stamped, List.nil_append, List.cons.injEq] at h
        exact ⟨[], es, by rw [h.1]; rfl, rfl, h.2⟩
      | cons x xs =>
        simp only [stamped, List.cons_append, List.cons.injEq] at h
        obtain ⟨fs, gs, rfl, hfs, hgs⟩ := ih h.2
        exact ⟨.byte c :: fs, gs, rfl, by simp [stamped, hfs, h.1], hgs⟩

/-- The same for a byte of the stream without its reading. -/
theorem events_split_letter {es : List RxEvent} {xs ys : Bytes} {c : UInt8}
    (h : letters es = xs ++ c :: ys) :
    ∃ fs now gs, es = fs ++ .byte (c, now) :: gs ∧ letters fs = xs ∧ letters gs = ys := by
  obtain ⟨us, vs, hsplit, hus, hvs⟩ := List.map_eq_append_iff.mp h
  obtain ⟨v, ws, rfl, hv, hws⟩ := List.map_eq_cons_iff.mp hvs
  obtain ⟨fs, gs, hes, hfs, hgs⟩ := events_split hsplit
  refine ⟨fs, v.2, gs, ?_, by rw [letters, hfs, hus], by rw [letters, hgs, hws]⟩
  rw [hes, ← hv]

/-! ## Time, on events -/

/-- `Timely` for a list of events. -/
def TimelyEvents (es : List RxEvent) (flags : List (Nat × Nat)) : Prop :=
  ∀ before now after, es = before ++ .chunkEnd now :: after →
    ∀ f ∈ flags, f.1 < (stamped before).length → (stamped before).length ≤ f.2 →
      ∀ b, (stamped es)[f.1]? = some b → now.toNat ≤ b.2.toNat + frameTimeout.toNat

/-- A chunk end among the events is the end of one of the chunks. -/
theorem allEvents_chunkEnd {cs : List Chunk} {before after : List RxEvent} {now : UInt64}
    (h : allEvents cs = before ++ .chunkEnd now :: after) :
    ∃ pre c post, cs = pre ++ c :: post ∧ c.done = now
      ∧ stamped before = stream (pre ++ [c]) := by
  induction cs generalizing before with
  | nil => simp [allEvents] at h
  | cons c cs ih =>
    rw [allEvents, List.flatMap_cons, ← allEvents, Chunk.events, List.append_assoc] at h
    rcases List.append_eq_append_iff.mp h with ⟨mid, hmid, hrest⟩ | ⟨mid, hmid, hrest⟩
    · -- the chunk end lies after the bytes of the first chunk
      cases mid with
      | nil =>
        simp only [List.nil_append, List.cons_append, List.cons.injEq,
          RxEvent.chunkEnd.injEq] at hrest
        refine ⟨[], c, cs, rfl, hrest.1, ?_⟩
        rw [hmid, List.append_nil, stamped_bytes]
        simp [stream]
      | cons m mid =>
        simp only [List.cons_append, List.nil_append, List.cons.injEq] at hrest
        obtain ⟨pre, d, post, hcs, hdone, hstamped⟩ := ih hrest.2
        refine ⟨c :: pre, d, post, by rw [hcs]; rfl, hdone, ?_⟩
        rw [hmid, ← hrest.1, stamped_append, stamped_bytes]
        simp [stamped, hstamped, stream]
    · -- it cannot lie among them
      cases mid with
      | nil =>
        simp only [List.nil_append, List.cons_append, List.cons.injEq,
          RxEvent.chunkEnd.injEq] at hrest
        rw [List.append_nil] at hmid
        refine ⟨[], c, cs, rfl, hrest.1.symm, ?_⟩
        rw [← hmid, stamped_bytes]
        simp [stream]
      | cons m mid =>
        simp only [List.cons_append, List.cons.injEq] at hrest
        have hmem : RxEvent.chunkEnd now ∈ c.bytes.map RxEvent.byte := by
          rw [hmid, hrest.1]
          simp
        simp at hmem

theorem timelyEvents_of_timely {cs : List Chunk} {flags : List (Nat × Nat)}
    (h : Timely cs flags) : TimelyEvents (allEvents cs) flags := by
  intro before now after hsplit f hf hopen hclose b hb
  obtain ⟨pre, c, post, hcs, rfl, hstamped⟩ := allEvents_chunkEnd hsplit
  rw [hstamped] at hopen hclose
  rw [stamped_allEvents] at hb
  exact h pre c post hcs f hf hopen hclose b hb

theorem flagPositions_add (k base : Nat) (frames : Frames) :
    flagPositions (k + base) frames
      = (flagPositions base frames).map fun f => (k + f.1, k + f.2) := by
  induction frames generalizing base with
  | nil => rfl
  | cons f fs ih =>
    have hlen : 0 < (pppFrame f.1).length := by rw [pppFrame_eq]; simp
    rw [flagPositions, flagPositions, List.map_cons,
      show k + base + (pppFrame f.1).length + f.2.length
        = k + (base + (pppFrame f.1).length + f.2.length) from by omega, ih]
    congr 2
    omega

/-- What is timely stays so once a first part of the events is gone. -/
theorem TimelyEvents.drop {es fs : List RxEvent} {k : Nat} {flags : List (Nat × Nat)}
    (hk : (stamped es).length = k)
    (h : TimelyEvents (es ++ fs) (flags.map fun f => (k + f.1, k + f.2))) :
    TimelyEvents fs flags := by
  intro before now after hsplit f hf hopen hclose b hb
  subst hk
  refine h (es ++ before) now after (by rw [hsplit, List.append_assoc]) _
    (List.mem_map_of_mem hf) ?_ ?_ b ?_
  · rw [stamped_append, List.length_append]
    omega
  · rw [stamped_append, List.length_append]
    omega
  · rw [stamped_append, List.getElem?_append_right (by omega), Nat.add_sub_cancel_left]
    exact hb

theorem reading_le {es fs : List RxEvent} {e f : RxEvent}
    (hclock : ((es ++ e :: fs).map RxEvent.reading).Pairwise (· ≤ ·)) (hf : f ∈ fs) :
    e.reading ≤ f.reading := by
  rw [List.map_append, List.map_cons, List.pairwise_append, List.pairwise_cons] at hclock
  exact hclock.2.1.1 _ (List.mem_map_of_mem hf)

/-- A chunk end within the timeout of the last flag is no timeout, also on unsigned
readings. -/
theorem not_timeout {last now : UInt64} (hle : last ≤ now)
    (hnear : now.toNat ≤ last.toNat + frameTimeout.toNat) : ¬ frameTimeout < now - last := by
  -- the clock does not go back, so the difference does not wrap around
  rw [UInt64.lt_iff_toNat_lt, UInt64.toNat_sub_of_le _ _ hle]
  omega

/-! ## One frame, and all of them -/

/-- The events of a frame, given those of its body and the readings at its two flags. -/
def frameEvents (opened closed : UInt64) (body : List RxEvent) : List RxEvent :=
  .byte (pppFlagChar, opened) :: (body ++ [.byte (pppFlagChar, closed)])

theorem length_stamped_frameEvents (opened closed : UInt64) (body : List RxEvent) :
    (stamped (frameEvents opened closed body)).length = (stamped body).length + 2 := by
  simp [frameEvents, stamped]

/-- What the splitter accepts out of events whose bytes are noise comes from the noise. -/
theorem accepted_fromNoise {noise kept : Bytes} {last : UInt64} {es : List RxEvent}
    (hbytes : letters es = noise) {q : Bytes} {seg : Bytes}
    (hseg : seg ∈ (Segments.split pppFlagChar kept (eventInputs last es)).2 ∨
      seg = (Segments.split pppFlagChar kept (eventInputs last es)).1)
    (haccept : accepted seg = some q) : FromNoise (kept ++ noise) q := by
  obtain ⟨hsegs, hkept⟩ := Segments.split_infix pppFlagChar kept (eventInputs last es)
  rw [letters_eventInputs, hbytes] at hsegs hkept
  have hpiece : seg <:+: kept ++ noise := by
    rcases hseg with h | rfl
    · exact hsegs seg h
    · exact hkept.isInfix
  have hdeframe := accepted_eq_some.mp haccept
  exact ⟨seg, hpiece, (pppDeframe_accepts hdeframe).1, hdeframe⟩

/-- **One frame**: after any noise the events up to its closing flag emit what the noise
gives and then the payload, and nothing is kept. -/
theorem split_frame (kept : Bytes) (last closed : UInt64) {p noise : Bytes} (hne : p ≠ [])
    {opened : UInt64} {pre body : List RxEvent} (hpre : letters pre = noise)
    (hbody : letters body = pppBody p)
    (htime : ∀ now, .chunkEnd now ∈ body → ¬ frameTimeout < now - opened) :
    ∃ extra segs, (∀ q ∈ extra, FromNoise (kept ++ noise) q) ∧
      Segments.split pppFlagChar kept (eventInputs last (pre ++ frameEvents opened closed body))
        = ([], segs) ∧ segs.filterMap accepted = extra ++ [p] := by
  -- the body leaves no cut, so the frame is fed symbol by symbol
  have hinputs : eventInputs last (pre ++ frameEvents opened closed body)
      = eventInputs last pre
        ++ Segments.symbols (pppFlagChar :: (pppBody p ++ [pppFlagChar])) := by
    obtain ⟨hin, _⟩ := eventInputs_body (flag_not_mem_pppBody p) hbody htime
    rw [eventInputs_append, frameEvents, eventInputs, if_pos rfl, eventInputs_append, hin]
    simp [eventInputs, Segments.symbols]
  rw [hinputs, Segments.split_append, Segments.split_framed _ (flag_not_mem_pppBody p)]
  refine ⟨((Segments.split pppFlagChar kept (eventInputs last pre)).2
    ++ [(Segments.split pppFlagChar kept (eventInputs last pre)).1]).filterMap accepted,
    _, fun q hq => ?_, rfl, ?_⟩
  -- the segments up to the opening flag hold noise only
  · obtain ⟨seg, hseg, haccept⟩ := List.mem_filterMap.mp hq
    rw [List.mem_append, List.mem_singleton] at hseg
    exact accepted_fromNoise hpre hseg haccept
  · have hlast : [pppBody p].filterMap accepted = [p] := by simp [accepted_pppBody hne]
    rw [← hlast, ← List.filterMap_append, List.append_assoc]
    rfl

/-- The chunk ends inside the first frame come in time. -/
theorem body_in_time {noise p after : Bytes} {frames : Frames} {opened closed : UInt64}
    {pre body rest : List RxEvent} (hpre : letters pre = noise) (hbody : letters body = pppBody p)
    (hclock : ((pre ++ frameEvents opened closed body ++ rest).map RxEvent.reading).Pairwise
      (· ≤ ·))
    (htimely : TimelyEvents (pre ++ frameEvents opened closed body ++ rest)
      (flagPositions noise.length ((p, after) :: frames))) :
    ∀ now, .chunkEnd now ∈ body → ¬ frameTimeout < now - opened := by
  intro now hnow
  obtain ⟨b₁, b₂, rfl⟩ := List.append_of_mem hnow
  have hlenpre : (stamped pre).length = noise.length := by
    rw [← hpre, letters, List.length_map]
  have hlenbody : (stamped b₁).length ≤ (pppBody p).length := by
    rw [← hbody, letters, List.length_map, stamped_append, List.length_append]
    omega
  have hlenframe : (pppFrame p).length = (pppBody p).length + 2 := by
    rw [pppFrame_eq]
    simp
  -- the chunk end stands after the opening flag and before the closing one
  have hsplit : pre ++ frameEvents opened closed (b₁ ++ .chunkEnd now :: b₂) ++ rest
      = (pre ++ .byte (pppFlagChar, opened) :: b₁)
        ++ .chunkEnd now :: (b₂ ++ .byte (pppFlagChar, closed) :: rest) := by
    simp [frameEvents]
  have hlenbefore : (stamped (pre ++ .byte (pppFlagChar, opened) :: b₁)).length
      = noise.length + (stamped b₁).length + 1 := by
    simp only [stamped_append, stamped, List.length_append, List.length_cons]
    omega
  refine not_timeout ?_ ?_
  · rw [hsplit, List.append_assoc, List.cons_append] at hclock
    exact reading_le (f := .chunkEnd now) hclock (by simp)
  · refine htimely _ now _ hsplit _ List.mem_cons_self ?_ ?_ (pppFlagChar, opened) ?_
    · rw [hlenbefore]
      show noise.length < _
      omega
    · rw [hlenbefore]
      show _ ≤ noise.length + (pppFrame p).length - 1
      omega
    · show (stamped _)[noise.length]? = _
      rw [hsplit, stamped_append, List.getElem?_append_left (by omega), stamped_append,
        List.getElem?_append_right (by omega), hlenpre]
      simp [stamped]

/-- Up to its closing flag, a frame and the noise before it. -/
theorem length_stamped_frame {noise p : Bytes} {pre body : List RxEvent}
    (opened closed : UInt64) (hpre : letters pre = noise) (hbody : letters body = pppBody p) :
    (stamped (pre ++ frameEvents opened closed body)).length
      = noise.length + (pppFrame p).length := by
  rw [stamped_append, List.length_append, length_stamped_frameEvents, ← hpre, letters,
    List.length_map, pppFrame_eq, ← hbody, letters]
  simp

/-- **All frames.** Induction on the frames: the noise before a frame is handed over at its
opening flag, so the next stretch of noise starts with nothing kept. -/
theorem split_frames (frames : Frames) (hne : ∀ f ∈ frames, f.1 ≠ []) (noise kept : Bytes)
    (last : UInt64) (es : List RxEvent) (hbytes : letters es = noisy noise frames)
    (hclock : (es.map RxEvent.reading).Pairwise (· ≤ ·))
    (htimely : TimelyEvents es (flagPositions noise.length frames)) :
    ∃ extra out, (∀ q ∈ extra, FromNoise (kept ++ noise) q) ∧ Delivers frames out ∧
      (Segments.split pppFlagChar kept (eventInputs last es)).2.filterMap accepted
        = extra ++ out := by
  induction frames generalizing noise kept last es with
  | nil =>
    rw [noisy, List.flatMap_nil, List.append_nil] at hbytes
    refine ⟨_, [], fun q hq => ?_, .nil, (List.append_nil _).symm⟩
    obtain ⟨seg, hseg, haccept⟩ := List.mem_filterMap.mp hq
    exact accepted_fromNoise hbytes (.inl hseg) haccept
  | cons f fs ih =>
    obtain ⟨p, after⟩ := f
    -- cut the events at the two flags of the first frame
    have hstream : letters es
        = noise ++ pppFlagChar :: (pppBody p ++ pppFlagChar :: noisy after fs) := by
      rw [hbytes, noisy, List.flatMap_cons, pppFrame_eq, noisy]
      simp
    obtain ⟨pre, opened, es₁, hes, hpre, hes₁⟩ := events_split_letter hstream
    obtain ⟨body, closed, rest, rfl, hbody, hrest⟩ := events_split_letter hes₁
    have hes' : es = pre ++ frameEvents opened closed body ++ rest := by
      rw [hes]
      simp [frameEvents]
    subst hes'
    have htime := body_in_time hpre hbody hclock htimely
    obtain ⟨extra, segs, hextra, hkept, hsegs⟩ := split_frame kept last closed
      (hne (p, after) List.mem_cons_self) hpre hbody htime
    -- the rest starts with nothing kept
    have htimely' : TimelyEvents rest (flagPositions after.length fs) := by
      refine TimelyEvents.drop (length_stamped_frame opened closed hpre hbody) ?_
      rw [← flagPositions_add]
      exact fun before now late hs g hg => htimely before now late hs g
        (List.mem_cons_of_mem _ hg)
    have hclock' : (rest.map RxEvent.reading).Pairwise (· ≤ ·) := by
      rw [List.map_append, List.pairwise_append] at hclock
      exact hclock.2.1
    obtain ⟨extra', out, hextra', hdelivers, hsplit⟩ := ih
      (fun f hf => hne f (List.mem_cons_of_mem _ hf)) after []
      (lastFlag last (pre ++ frameEvents opened closed body)) rest hrest hclock' htimely'
    refine ⟨extra, p :: (extra' ++ out), hextra, .cons (by simpa using hextra') hdelivers, ?_⟩
    rw [eventInputs_append, Segments.split_append, hkept]
    simp [List.filterMap_append, hsegs, hsplit]

/-- **Framed transport is exact and resynchronises.** Whatever the receiver's state, noise
and frames in any chunks are answered by what the noise gives and each payload, in order:
the first stretch of noise continues what the receiver had kept. -/
theorem framed_transport (rx : FrameRx) (noise : Bytes) (frames : Frames)
    (hne : ∀ f ∈ frames, f.1 ≠ []) (cs : List Chunk)
    (hbytes : (stream cs).map Prod.fst = noisy noise frames)
    (hclock : (readings cs).Pairwise (· ≤ ·))
    (htimely : Timely cs (flagPositions noise.length frames)) :
    ∃ extra out, (∀ q ∈ extra, FromNoise (rx.inputFrame ++ noise) q) ∧ Delivers frames out ∧
      emitted (Mealy.run FrameExtractor.handleRxd rx cs).2 = extra ++ out := by
  obtain ⟨-, hout⟩ := emitted_eq_split (fun inputFrame _ => inputFrame) cs rx
  obtain ⟨extra, out, hextra, hdelivers, hsplit⟩ := split_frames frames hne noise rx.inputFrame
    rx.lastFrameFlag (allEvents cs) (by rw [letters, stamped_allEvents, hbytes])
    (by rw [map_reading_allEvents]; exact hclock) (timelyEvents_of_timely htimely)
  refine ⟨extra, out, hextra, hdelivers, ?_⟩
  rw [← hsplit, ← splitInputs_eq, ← hout]
  rfl

theorem timely_of_quick {cs : List Chunk} {flags : List (Nat × Nat)}
    (h : ((readings cs).all fun r =>
      (readings cs).all fun r' => r.toNat ≤ r'.toNat + frameTimeout.toNat) = true) :
    Timely cs flags := by
  rintro before c after rfl f - - - b hb
  simp only [List.all_eq_true, decide_eq_true_eq] at h
  apply h
  · simp [readings]
  · obtain ⟨c', hc', hbc⟩ := List.mem_flatMap.mp (List.mem_of_getElem? hb)
    exact List.mem_flatMap.mpr ⟨c', hc', List.mem_append_left _ (List.mem_map_of_mem hbc)⟩

/-- Noise with a flag in it, a frame that is cut in two, and noise with an escape. -/
theorem framed_transport_cut :
    ∃ extra out, (∀ q ∈ extra, FromNoise ([0x01] ++ [0x7E, 0x05]) q) ∧
      Delivers [([0x07], [0x7D])] out ∧
      emitted (Mealy.run FrameExtractor.handleRxd ⟨[0x01], [], 7⟩
        [⟨[(0x7E, 10), (0x05, 11), (0x7E, 12), (0x07, 13)], 20⟩,
          ⟨((pppFrame [0x07]).drop 2 ++ [0x7D]).map fun b => (b, 30), 40⟩]).2 = extra ++ out :=
  framed_transport ⟨[0x01], [], 7⟩ [0x7E, 0x05] [([0x07], [0x7D])] (by simp) _ (by decide)
    (by decide) (timely_of_quick (by decide))

end ZenohProxy
