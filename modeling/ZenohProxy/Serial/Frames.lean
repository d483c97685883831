import ZenohProxy.Ppp.BrokenFrames
import ZenohProxy.Serial.Send

/-!
# Frames over the serial port

`txd` can lose the end of a frame: at the `tcflush`, or when a `write` fails and it gives up. The
next call then starts a frame where the last one broke off.

`line_broken_iff`: what the line carries is a first part of each frame, and can be any.
`line_gives_pieces`: even so, and whatever the chunks and the clock of the receiver, each frame
gives at most one payload, which is a piece of its own content. Two frames are never taken for
one. `exists_broken_chunks`: each such piece does come out.
-/

namespace ZenohProxy

open Labelled

/-- The buffers of the calls that have ended, whatever they returned. -/
def returnedBuffers (es : List TtyEvent) : List Bytes :=
  es.filterMap fun e =>
    match e with
    | .returned buffer _ => some buffer
    | _ => none

/-- The buffer of the call that is running, if there is one. -/
def TxdState.running : TxdState → List Bytes
  | .idle => []
  | at_ => [at_.buffer]

/-- The buffers of all calls, in order. -/
def calls (es : List TtyEvent) (s : Tty) : List Bytes := returnedBuffers es ++ s.txd.running

theorem returnedBuffers_append (es es' : List TtyEvent) :
    returnedBuffers (es ++ es') = returnedBuffers es ++ returnedBuffers es' :=
  List.filterMap_append

namespace Tty

/-- On the line and in the queue stand a first part of each buffer, the last of which goes on
with what is unwritten. -/
def Broken (es : List TtyEvent) (s : Tty) : Prop :=
  ∃ parts last, List.Forall₂ (· <+: ·) parts (returnedBuffers es) ∧
    s.line ++ s.queue = parts.flatten ++ last ∧ last ++ s.txd.unwritten = s.txd.buffer

theorem broken_start : Broken [] start := ⟨[], [], .nil, rfl, rfl⟩

section

variable {port : Serial} {s s' : Tty} {es es' : List TtyEvent}

/-- Some of the buffer is written. -/
theorem Broken.writes (h : Broken es s) {written : Bytes}
    (hbuffer : s'.txd.buffer = s.txd.buffer)
    (hunwritten : written ++ s'.txd.unwritten = s.txd.unwritten)
    (hkept : s'.line ++ s'.queue = s.line ++ s.queue ++ written) : Broken (es ++ []) s' := by
  obtain ⟨parts, last, hparts, hsent, hlast⟩ := h
  rw [List.append_nil]
  refine ⟨parts, last ++ written, hparts, ?_, ?_⟩
  · rw [hkept, hsent, List.append_assoc]
  · rw [List.append_assoc, hunwritten, hbuffer, hlast]

/-- Steps that only move bytes. -/
theorem Broken.moves (h : Broken es s) (hbuffer : s'.txd.buffer = s.txd.buffer)
    (hunwritten : s'.txd.unwritten = s.txd.unwritten)
    (hkept : s'.line ++ s'.queue = s.line ++ s.queue) : Broken (es ++ []) s' :=
  h.writes hbuffer ((List.nil_append _).trans hunwritten) (hkept.trans (List.append_nil _).symm)

/-- The call ends. What it has left on the line is a first part of its buffer, and it may have
taken the ends of others away. -/
theorem Broken.returns (h : Broken es s) {buffer : Bytes} (hbuffer : s.txd.buffer = buffer)
    (hidle : s'.txd = .idle) (hkept : s'.line ++ s'.queue <+: s.line ++ s.queue)
    (hreturned : returnedBuffers es' = [buffer]) : Broken (es ++ es') s' := by
  obtain ⟨parts, last, hparts, hsent, hlast⟩ := h
  have hends : List.Forall₂ (· <+: ·) (parts ++ [last]) (returnedBuffers (es ++ es')) := by
    rw [returnedBuffers_append, hreturned, ← hbuffer, ← hlast]
    exact List.rel_append hparts (.cons (List.prefix_append _ _) .nil)
  have hflatten : (parts ++ [last]).flatten = s.line ++ s.queue := by
    rw [hsent, List.flatten_append, List.flatten_singleton]
  rw [← hflatten] at hkept
  obtain ⟨parts', hparts', hsent'⟩ := Segments.broken_of_prefix hends hkept
  refine ⟨parts', [], hparts', ?_, ?_⟩
  · rw [hsent', List.append_nil]
  · rw [hidle]
    rfl

/-- A call starts, or is refused. -/
theorem Broken.call (h : Broken es s) (hidle : s.txd = .idle) (buffer : Bytes) :
    Broken (es ++ (port.txd buffer).2) { s with txd := (port.txd buffer).1 } := by
  obtain ⟨parts, last, hparts, hsent, hlast⟩ := h
  rw [hidle] at hlast
  obtain rfl : last = [] := (List.append_nil last).symm.trans hlast
  rw [Serial.txd]
  split
  · rw [List.append_nil]
    exact ⟨parts, [], hparts, hsent, rfl⟩
  -- of a refused buffer nothing is sent
  · refine ⟨parts ++ [[]], [], ?_, ?_, rfl⟩
    · rw [returnedBuffers_append]
      exact List.rel_append hparts (.cons List.nil_prefix .nil)
    · rw [hsent]
      simp

/-- **A step leaves first parts on the line.** -/
theorem Broken.step (h : Broken es s) (hstep : Step port s es' s') : Broken (es ++ es') s' := by
  cases hstep with
  | takes taken queue hqueue =>
    refine h.moves rfl rfl ?_
    rw [hqueue, List.append_assoc]
  | call buffer hat => exact h.call hat buffer
  | done buffer hat =>
    refine h.moves ?_ ?_ rfl <;> rw [hat] <;> rfl
  | write buffer buf hat hbuf n hn =>
    obtain ⟨hevents, hbuffer, hunwritten⟩ := Serial.afterWrite_ok buffer buf n
    rw [hevents]
    refine h.writes ?_ (hunwritten.trans ?_) (List.append_assoc _ _ _).symm
    · rw [hbuffer, hat]
      rfl
    · rw [hat]
      rfl
  | fails buffer buf hat hbuf errno =>
    rw [Serial.afterWrite]
    split
    · refine h.moves ?_ ?_ rfl <;> rw [hat] <;> rfl
    -- it gives up, with what it has written in the queue
    · refine h.returns ?_ rfl List.prefix_rfl rfl
      rw [hat]
      rfl
  | drained buffer buf hat hqueue =>
    refine h.moves ?_ ?_ rfl <;> rw [hat] <;> rfl
  | fsync buffer hat =>
    refine h.moves ?_ ?_ rfl <;> rw [hat] <;> rfl
  | tcflush buffer hat =>
    refine h.returns ?_ rfl ?_ rfl
    · rw [hat]
      rfl
    · rw [List.append_nil]
      exact List.prefix_append _ _

theorem Broken.run (h : Broken es s) (hrun : Run port s es' s') : Broken (es ++ es') s' :=
  hrun.keeps h fun h hstep => h.step hstep

end

/-- What has reached the line is a first part of each buffer. -/
theorem line_broken {port : Serial} {s : Tty} {es : List TtyEvent} (hrun : Run port start es s) :
    ∃ parts, List.Forall₂ (· <+: ·) parts (calls es s) ∧ s.line = parts.flatten := by
  obtain ⟨parts, last, hparts, hsent, hlast⟩ := broken_start.run hrun
  rw [List.nil_append] at hparts
  have hall : ∃ parts', List.Forall₂ (· <+: ·) parts' (calls es s) ∧
      s.line ++ s.queue = parts'.flatten := by
    rw [calls]
    cases hat : s.txd with
    | idle =>
      rw [hat] at hlast
      obtain rfl : last = [] := (List.append_nil last).symm.trans hlast
      refine ⟨parts, ?_, by rw [hsent, List.append_nil]⟩
      rw [TxdState.running, List.append_nil]
      exact hparts
    | _ =>
      rw [hat] at hlast
      refine ⟨parts ++ [last], ?_, by rw [hsent, List.flatten_append, List.flatten_singleton]⟩
      rw [TxdState.running, ← hlast]
      · exact List.rel_append hparts (.cons (List.prefix_append _ _) .nil)
      · simp
  obtain ⟨parts', hparts', hall⟩ := hall
  exact Segments.broken_of_prefix hparts' (hall ▸ List.prefix_append s.line s.queue)

/-- A call that ends well while the line has taken only a first part of its buffer. -/
theorem run_cut {port : Serial} (hport : port.connected = true) (line part lost : Bytes) :
    Run port ⟨.idle, [], line⟩ [.tcflush lost, .returned (part ++ lost) 0]
      ⟨.idle, [], line ++ part⟩ := by
  have hcall : Run port ⟨.idle, [], line⟩ [] ⟨.loop (part ++ lost) (part ++ lost), [], line⟩ := by
    have hstart : Run port ⟨.idle, [], line⟩ [] ⟨.idle, [], line⟩ := .refl _
    have hcall := hstart.tail (.call (part ++ lost) rfl)
    rwa [Serial.txd, if_pos hport] at hcall
  have hwritten : Run port ⟨.idle, [], line⟩ [] ⟨.fsync (part ++ lost), part ++ lost, line⟩ := by
    by_cases hempty : part ++ lost = []
    · rw [hempty] at hcall ⊢
      exact hcall.tail (.done [] rfl)
    · have hwrite := hcall.tail (.write _ _ rfl hempty (part ++ lost).length (Nat.le_refl _))
      rwa [Serial.afterWrite, if_pos rfl, List.take_length] at hwrite
  have htaken : Run port ⟨.idle, [], line⟩ [] ⟨.tcflush (part ++ lost), lost, line ++ part⟩ :=
    (hwritten.tail (.takes part lost rfl)).tail (.fsync _ rfl)
  exact htaken.tail (.tcflush _ rfl)

theorem exists_run_of_parts {port : Serial} (hport : port.connected = true) (line : Bytes)
    {parts buffers : List Bytes} (hparts : List.Forall₂ (· <+: ·) parts buffers) :
    ∃ es, Run port ⟨.idle, [], line⟩ es ⟨.idle, [], line ++ parts.flatten⟩ ∧
      returnedBuffers es = buffers := by
  induction hparts generalizing line with
  | nil =>
    rw [List.flatten_nil, List.append_nil]
    exact ⟨[], .refl _, rfl⟩
  | @cons part buffer parts buffers hpart _ ih =>
    obtain ⟨lost, rfl⟩ := hpart
    obtain ⟨es, hrun, hreturned⟩ := ih (line ++ part)
    rw [List.append_assoc] at hrun
    refine ⟨_, (run_cut hport line part lost).trans hrun, ?_⟩
    rw [returnedBuffers_append, hreturned]
    rfl

/-- Any first parts can be what reaches the line. -/
theorem exists_line_of_parts {port : Serial} (hport : port.connected = true)
    {parts buffers : List Bytes} (hparts : List.Forall₂ (· <+: ·) parts buffers) :
    ∃ s es, Run port start es s ∧ calls es s = buffers ∧ s.line = parts.flatten := by
  obtain ⟨es, hrun, hreturned⟩ := exists_run_of_parts hport [] hparts
  refine ⟨⟨.idle, [], parts.flatten⟩, es, hrun, ?_, rfl⟩
  rw [calls, hreturned]
  exact List.append_nil buffers

/-- **What the line can carry.** The port is connected. For any calls of `txd`, with any partial
writes and failures and any speed of the line, what has reached the line is a first part of each
buffer, in order; and any first parts can be what reaches it. -/
theorem line_broken_iff {port : Serial} (hport : port.connected = true) (buffers : List Bytes)
    (line : Bytes) :
    (∃ s es, Run port start es s ∧ calls es s = buffers ∧ s.line = line) ↔
      ∃ parts, List.Forall₂ (· <+: ·) parts buffers ∧ line = parts.flatten := by
  constructor
  · rintro ⟨s, es, hrun, rfl, rfl⟩
    exact line_broken hrun
  · rintro ⟨parts, hparts, rfl⟩
    exact exists_line_of_parts hport hparts

/-- Of two frames the first loses its end. -/
theorem line_broken_two :
    (⟨3, true⟩ : Serial).connected = true ∧
      ∃ s es, Run ⟨3, true⟩ start es s ∧ calls es s = [[0x7E, 1, 2], [0x7E, 3]] ∧
        s.line = [0x7E, 1, 0x7E, 3] :=
  ⟨rfl, (line_broken_iff rfl _ _).mpr ⟨[[0x7E, 1], [0x7E, 3]], by simp, rfl⟩⟩

/-- **What frames over the serial port give.** Each call of `txd` sends a frame, with any partial
writes, failures and discarded ends. The receiver gets some of what has reached the line, in any
chunks and at any time. The payloads that come out are, in order, pieces of those that were sent,
at most one of each. -/
theorem line_gives_pieces {port : Serial} {s : Tty} {es : List TtyEvent}
    (hrun : Run port start es s) {payloads : List Bytes}
    (hcalls : calls es s = payloads.map pppFrame) (report : Bytes → Bytes → Bytes) {rx : FrameRx}
    (hrx : rx.inputFrame = []) {cs : List Chunk} (hbytes : (stream cs).map Prod.fst <+: s.line) :
    List.SublistForall₂ (fun e p => PieceAs p e)
      (emitted (Mealy.run (FrameRx.handleRxd report) rx cs).2) payloads := by
  obtain ⟨parts, hparts, hline⟩ := line_broken hrun
  rw [hcalls] at hparts
  rw [hline] at hbytes
  obtain ⟨parts', hparts', hbytes⟩ := Segments.broken_of_prefix hparts hbytes
  exact emitted_pieces report hrx hparts' hbytes

/-- The first frame loses its end, and the payload of the second comes out. -/
theorem line_gives_pieces_two :
    ∃ (s : Tty) (es : List TtyEvent) (cs : List Chunk), Run ⟨3, true⟩ start es s ∧
      calls es s = [[7, 8], [9]].map pppFrame ∧ (stream cs).map Prod.fst <+: s.line ∧
      emitted (Mealy.run FrameExtractor.handleRxd ⟨[], [], 0⟩ cs).2 = [[9]] ∧
      List.SublistForall₂ (fun e p => PieceAs p e)
        (emitted (Mealy.run FrameExtractor.handleRxd ⟨[], [], 0⟩ cs).2) [[7, 8], [9]] := by
  have hrun : Run ⟨3, true⟩ start _ _ :=
    (run_cut rfl [] [0x7E, 7] ((pppFrame [7, 8]).drop 2)).trans (run_cut rfl _ (pppFrame [9]) [])
  refine ⟨_, _, [⟨readAt 0 ([0x7E, 7] ++ pppFrame [9]), 0⟩], hrun, ?_, ?_, ?_, ?_⟩
  · decide +kernel
  · decide +kernel
  · decide +kernel
  · exact line_gives_pieces hrun (by decide +kernel) _ rfl (by decide +kernel)

/-- **Each piece of a frame comes out** when the frame is cut behind it and stalls before it. -/
theorem exists_broken_chunks {port : Serial} (hport : port.connected = true) {p e : Bytes}
    (h : PieceAs p e) (next : Bytes) :
    ∃ (s : Tty) (es : List TtyEvent) (cs : List Chunk), Run port start es s ∧
      calls es s = [pppFrame p, pppFrame next] ∧ (readings cs).Pairwise (· ≤ ·) ∧
      (∀ c ∈ cs, c.bytes ≠ []) ∧ (stream cs).map Prod.fst = s.line ∧
      ∀ (report : Bytes → Bytes → Bytes) (rx : FrameRx), rx.inputFrame = [] →
        emitted (Mealy.run (FrameRx.handleRxd report) rx cs).2 = [e] := by
  obtain ⟨lost, after, hbody⟩ := h.body
  have hflag : pppFlagChar ∉ lost := fun hmem => flag_not_mem_pppBody p <| by
    rw [← hbody, List.append_assoc]
    exact List.mem_append_left _ hmem
  have hparts : List.Forall₂ (· <+: ·) [pppFlagChar :: (lost ++ pppBody e), [pppFlagChar]]
      [pppFrame p, pppFrame next] := by
    rw [pppFrame_eq, pppFrame_eq, ← hbody]
    refine .cons ⟨after ++ [pppFlagChar], ?_⟩ (.cons ⟨pppBody next ++ [pppFlagChar], ?_⟩ .nil)
    · simp
    · simp
  obtain ⟨s, es, hrun, hcalls, hline⟩ := exists_line_of_parts hport hparts
  refine ⟨s, es, stalledChunks lost (pppBody e ++ [pppFlagChar]), hrun, hcalls,
    readings_stalledChunks _ _, bytes_ne_nil_of_mem_stalledChunks (by simp), ?_,
    fun report rx hrx => ?_⟩
  · rw [stream_stalledChunks, hline]
    simp
  · exact emitted_stalledChunks hflag h.ne_nil report hrx

end Tty

end ZenohProxy
