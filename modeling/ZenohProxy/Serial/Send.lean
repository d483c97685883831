import ZenohProxy.Lib.Simulation
import ZenohProxy.Serial.Session

/-!
# Sending on the serial port

`txd` writes a buffer to the tty, in several parts if the tty takes only some of it, and ends
with a `tcflush` of the output queue. The line takes bytes from the queue when it likes, also
between two calls of the system. What is still queued at the `tcflush` does not reach it:
`sent_kept_iff`.
-/

namespace ZenohProxy

open Labelled

/-- What `write` answers: how many bytes the tty took, or an error. -/
inductive WriteResult where
  | ok (n : Nat)
  | error (errno : Errno)
  deriving DecidableEq

/-- Where the program is in `txd`, with the buffer of the call and what is left of it. -/
inductive TxdState where
  | idle
  /-- Before the test of the loop. -/
  | loop (buffer buf : Bytes)
  | tcdrain (buffer buf : Bytes)
  | fsync (buffer : Bytes)
  | tcflush (buffer : Bytes)
  deriving DecidableEq

/-- What happens besides the transport of bytes. A `tcflush` comes with what is queued then. -/
inductive TtyEvent where
  | returned (buffer : Bytes) (rc : Int)
  | writeFailed (errno : Errno)
  | tcflush (queued : Bytes)
  deriving DecidableEq

namespace Serial

/-- `txd` is called. -/
def txd (s : Serial) (buffer : Bytes) : TxdState × List TtyEvent :=
  if s.connected then (.loop buffer buffer, []) else (.idle, [.returned buffer enotconn])

/-- The body of the loop after `write`. -/
def afterWrite (buffer buf : Bytes) : WriteResult → TxdState × List TtyEvent
  | .ok n => if n = buf.length then (.fsync buffer, []) else (.tcdrain buffer (buf.drop n), [])
  | .error errno =>
    if errno.val = eagain then (.tcdrain buffer buf, [])
    else (.idle, [.writeFailed errno, .returned buffer errno.val])

end Serial

/-- The tty and the program that writes to it. -/
structure Tty where
  txd : TxdState
  /-- The output queue. -/
  queue : Bytes
  /-- What has reached the line. -/
  line : Bytes
  deriving DecidableEq

namespace Tty

def start : Tty := ⟨.idle, [], []⟩

/-- A step of the line or of the program. -/
inductive Step (port : Serial) : Tty → List TtyEvent → Tty → Prop where
  | takes {s : Tty} (taken queue : Bytes) (hqueue : s.queue = taken ++ queue) :
      Step port s [] { s with queue, line := s.line ++ taken }
  | call {s : Tty} (buffer : Bytes) (hat : s.txd = .idle) :
      Step port s (port.txd buffer).2 { s with txd := (port.txd buffer).1 }
  | done {s : Tty} (buffer : Bytes) (hat : s.txd = .loop buffer []) :
      Step port s [] { s with txd := .fsync buffer }
  | write {s : Tty} (buffer buf : Bytes) (hat : s.txd = .loop buffer buf) (hbuf : buf ≠ [])
      (n : Nat) (hn : n ≤ buf.length) :
      Step port s (Serial.afterWrite buffer buf (.ok n)).2
        { s with txd := (Serial.afterWrite buffer buf (.ok n)).1, queue := s.queue ++ buf.take n }
  | fails {s : Tty} (buffer buf : Bytes) (hat : s.txd = .loop buffer buf) (hbuf : buf ≠ [])
      (errno : Errno) :
      Step port s (Serial.afterWrite buffer buf (.error errno)).2
        { s with txd := (Serial.afterWrite buffer buf (.error errno)).1 }
  /-- `tcdrain` returns only when the queue is empty. -/
  | drained {s : Tty} (buffer buf : Bytes) (hat : s.txd = .tcdrain buffer buf)
      (hqueue : s.queue = []) : Step port s [] { s with txd := .loop buffer buf }
  /-- It has no effect on a tty. -/
  | fsync {s : Tty} (buffer : Bytes) (hat : s.txd = .fsync buffer) :
      Step port s [] { s with txd := .tcflush buffer }
  /-- The queue is discarded, and `txd` returns 0. -/
  | tcflush {s : Tty} (buffer : Bytes) (hat : s.txd = .tcflush buffer) :
      Step port s [.tcflush s.queue, .returned buffer 0] { s with txd := .idle, queue := [] }

/-- Any steps in any order. -/
abbrev Run (port : Serial) : Tty → List TtyEvent → Tty → Prop := Trace (Step port)

end Tty

/-! ## What is sent -/

/-- The buffers of the calls that returned 0. -/
def acknowledged (es : List TtyEvent) : Bytes :=
  es.flatMap fun e =>
    match e with
    | .returned buffer rc => if rc = 0 then buffer else []
    | _ => []

/-- What the `tcflush`es threw away. -/
def discarded (es : List TtyEvent) : Bytes :=
  es.flatMap fun e =>
    match e with
    | .tcflush queued => queued
    | _ => []

/-- The buffer of the call that is running. -/
def TxdState.buffer : TxdState → Bytes
  | .idle => []
  | .loop buffer _ => buffer
  | .tcdrain buffer _ => buffer
  | .fsync buffer => buffer
  | .tcflush buffer => buffer

/-- What of it has not been written. -/
def TxdState.unwritten : TxdState → Bytes
  | .loop _ buf => buf
  | .tcdrain _ buf => buf
  | _ => []

theorem acknowledged_append (es es' : List TtyEvent) :
    acknowledged (es ++ es') = acknowledged es ++ acknowledged es' := List.flatMap_append

theorem discarded_append (es es' : List TtyEvent) :
    discarded (es ++ es') = discarded es ++ discarded es' := List.flatMap_append

theorem discarded_eq_nil_iff (es : List TtyEvent) :
    discarded es = [] ↔ ∀ queued, .tcflush queued ∈ es → queued = [] := by
  rw [discarded, List.flatMap_eq_nil_iff]
  constructor
  · exact fun h queued hmem => h _ hmem
  · intro h e he
    cases e with
    | tcflush queued => exact h queued he
    | _ => rfl

theorem Serial.afterWrite_ok (buffer buf : Bytes) (n : Nat) :
    (afterWrite buffer buf (.ok n)).2 = [] ∧ (afterWrite buffer buf (.ok n)).1.buffer = buffer ∧
      buf.take n ++ (afterWrite buffer buf (.ok n)).1.unwritten = buf := by
  rw [afterWrite]
  split
  · rename_i hall
    refine ⟨rfl, rfl, ?_⟩
    rw [hall, List.take_length]
    exact List.append_nil buf
  · exact ⟨rfl, rfl, List.take_append_drop n buf⟩

theorem Serial.afterWrite_error (buffer buf : Bytes) (errno : Errno) :
    .writeFailed errno ∈ (afterWrite buffer buf (.error errno)).2 ∨
      afterWrite buffer buf (.error errno) = (.tcdrain buffer buf, []) := by
  rw [afterWrite]
  split
  · exact .inr rfl
  · exact .inl List.mem_cons_self

namespace Tty

/-- Every byte of the calls is on the line, in the queue, not yet written or discarded, and if
none was discarded they are in order. -/
structure Accounts (es : List TtyEvent) (s : Tty) : Prop where
  length : s.line.length + s.queue.length + s.txd.unwritten.length + (discarded es).length
    = (acknowledged es).length + s.txd.buffer.length
  order : discarded es = [] →
    s.line ++ s.queue ++ s.txd.unwritten = acknowledged es ++ s.txd.buffer

theorem accounts_start : Accounts [] start := ⟨rfl, fun _ => rfl⟩

section

variable {port : Serial} {s s' : Tty} {es es' : List TtyEvent}

/-- Steps that only move bytes. -/
theorem Accounts.moves (h : Accounts es s) (hbuffer : s'.txd.buffer = s.txd.buffer)
    (hkept : s'.line ++ s'.queue ++ s'.txd.unwritten = s.line ++ s.queue ++ s.txd.unwritten) :
    Accounts (es ++ []) s' := by
  rw [List.append_nil]
  refine ⟨?_, fun hdiscarded => ?_⟩
  · have hlength := congrArg List.length hkept
    simp only [List.length_append] at hlength
    rw [hlength, hbuffer]
    exact h.length
  · rw [hkept, hbuffer]
    exact h.order hdiscarded

theorem Accounts.call (h : Accounts es s) (hidle : s.txd = .idle) (buffer : Bytes) :
    Accounts (es ++ (port.txd buffer).2) { s with txd := (port.txd buffer).1 } := by
  have hlength := h.length
  have horder := h.order
  simp only [hidle, TxdState.unwritten, TxdState.buffer, List.append_nil] at hlength horder
  rw [Serial.txd]
  split
  · rw [List.append_nil]
    refine ⟨?_, fun hdiscarded => ?_⟩
    · simp only [TxdState.unwritten, TxdState.buffer]
      simp only [List.length_nil] at hlength
      omega
    · simp only [TxdState.unwritten, TxdState.buffer]
      rw [horder hdiscarded]
  -- without a connection nothing is written and nothing acknowledged
  · have hacknowledged : acknowledged [.returned buffer enotconn] = [] := rfl
    have hdiscarded : discarded [.returned buffer enotconn] = [] := rfl
    refine ⟨?_, fun hnone => ?_⟩
    · rw [acknowledged_append, hacknowledged, discarded_append, hdiscarded, List.append_nil,
        List.append_nil]
      exact hlength
    · rw [discarded_append, hdiscarded, List.append_nil] at hnone
      rw [acknowledged_append, hacknowledged, List.append_nil]
      simpa [TxdState.unwritten, TxdState.buffer] using horder hnone

/-- What is queued is discarded, and the call is acknowledged. -/
theorem Accounts.tcflush (h : Accounts es s) {buffer : Bytes} (hat : s.txd = .tcflush buffer) :
    Accounts (es ++ [.tcflush s.queue, .returned buffer 0])
      { s with txd := .idle, queue := [] } := by
  have hlength := h.length
  have horder := h.order
  simp only [hat, TxdState.unwritten, TxdState.buffer, List.append_nil] at hlength horder
  have hacknowledged : acknowledged [.tcflush s.queue, .returned buffer 0] = buffer := by
    simp [acknowledged]
  have hdiscarded : discarded [.tcflush s.queue, .returned buffer 0] = s.queue := by
    simp [discarded]
  refine ⟨?_, fun hnone => ?_⟩
  · rw [acknowledged_append, hacknowledged, discarded_append, hdiscarded, List.length_append,
      List.length_append]
    simp only [TxdState.unwritten, TxdState.buffer, List.length_nil] at hlength ⊢
    omega
  · rw [discarded_append, hdiscarded, List.append_eq_nil_iff] at hnone
    have hsent := horder hnone.1
    rw [hnone.2, List.append_nil] at hsent
    rw [acknowledged_append, hacknowledged]
    simpa [TxdState.unwritten, TxdState.buffer] using hsent

/-- **A step keeps the account.** -/
theorem Accounts.step (h : Accounts es s) (hstep : Step port s es' s')
    (hfailed : ∀ errno, .writeFailed errno ∉ es') : Accounts (es ++ es') s' := by
  cases hstep with
  | takes taken queue hqueue =>
    refine h.moves rfl ?_
    rw [hqueue]
    simp only [List.append_assoc]
  | call buffer hat => exact h.call hat buffer
  | done buffer hat =>
    refine h.moves ?_ ?_ <;> rw [hat] <;> rfl
  | write buffer buf hat hbuf n hn =>
    obtain ⟨hevents, hbuffer, hunwritten⟩ := Serial.afterWrite_ok buffer buf n
    rw [hevents]
    refine h.moves ?_ ?_
    · rw [hbuffer, hat]
      rfl
    · simp only [List.append_assoc]
      rw [hunwritten, hat]
      rfl
  | fails buffer buf hat hbuf errno =>
    rcases Serial.afterWrite_error buffer buf errno with hfail | hagain
    · exact absurd hfail (hfailed errno)
    · rw [hagain]
      refine h.moves ?_ ?_ <;> rw [hat] <;> rfl
  | drained buffer buf hat hqueue =>
    refine h.moves ?_ ?_ <;> rw [hat] <;> rfl
  | fsync buffer hat =>
    refine h.moves ?_ ?_ <;> rw [hat] <;> rfl
  | tcflush buffer hat => exact h.tcflush hat

theorem Accounts.run (h : Accounts es s) (hrun : Run port s es' s')
    (hfailed : ∀ errno, .writeFailed errno ∉ es') : Accounts (es ++ es') s' := by
  induction hrun with
  | refl => rwa [List.append_nil]
  | tail _ hstep ih =>
    rw [← List.append_assoc]
    have hfailed' := fun errno hmem => hfailed errno (List.mem_append_left _ hmem)
    exact (ih hfailed').step hstep fun errno hmem => hfailed errno (List.mem_append_right _ hmem)

end

/-- **When serial send discards nothing.** For any calls of `txd`, any partial writes and
`EAGAIN` and any speed of the line: between two calls, what has reached the line and what is
queued are the buffers of the calls that returned 0 exactly when the queue was empty at every
`tcflush`. -/
theorem sent_kept_iff {port : Serial} {s : Tty} {es : List TtyEvent}
    (hrun : Run port start es s) (hfailed : ∀ errno, .writeFailed errno ∉ es)
    (hidle : s.txd = .idle) :
    s.line ++ s.queue = acknowledged es ↔ ∀ queued, .tcflush queued ∈ es → queued = [] := by
  have haccounts := accounts_start.run hrun hfailed
  have hlength := haccounts.length
  have horder := haccounts.order
  simp only [hidle, TxdState.unwritten, TxdState.buffer, List.append_nil, List.nil_append]
    at hlength horder
  rw [← discarded_eq_nil_iff]
  refine ⟨fun hsent => ?_, horder⟩
  have hsent := congrArg List.length hsent
  rw [List.length_append] at hsent
  refine List.eq_nil_of_length_eq_zero ?_
  simp only [List.length_nil] at hlength
  omega

/-- One byte is written, and the call has returned before the line takes it. -/
theorem sent_byte_lost :
    ¬ ∀ s es, Run ⟨3, true⟩ start es s → (∀ errno, .writeFailed errno ∉ es) → s.txd = .idle →
      s.line ++ s.queue = acknowledged es := by
  intro h
  have hstart : Run ⟨3, true⟩ start [] start := .refl start
  have hwrite : Run ⟨3, true⟩ start [] ⟨.fsync [7], [7], []⟩ :=
    (hstart.tail (.call [7] rfl)).tail
      (.write [7] [7] rfl (by decide) 1 (by decide))
  have hrun : Run ⟨3, true⟩ start [.tcflush [7], .returned [7] 0] start :=
    (hwrite.tail (.fsync [7] rfl)).tail (.tcflush [7] rfl)
  have hsent := h _ _ hrun (by simp) rfl
  revert hsent
  decide

/-- The tty takes one byte of two and asks to try again, and the line takes both in time. -/
theorem sent_kept_iff_slow :
    [7, 8] ++ [] = acknowledged [.tcflush [], .returned [7, 8] 0] ↔
      ∀ queued, .tcflush queued ∈ [TtyEvent.tcflush [], .returned [7, 8] 0] → queued = [] := by
  have hstart : Run ⟨3, true⟩ start [] start := .refl start
  have hwrite : Run ⟨3, true⟩ start [] ⟨.tcdrain [7, 8] [8], [], [7]⟩ :=
    ((hstart.tail (.call [7, 8] rfl)).tail
      (.write [7, 8] [7, 8] rfl (by decide) 1 (by decide))).tail (.takes [7] [] rfl)
  have hagain : Run ⟨3, true⟩ start [] ⟨.tcdrain [7, 8] [8], [], [7]⟩ :=
    (hwrite.tail (.drained [7, 8] [8] rfl rfl)).tail
      (.fails [7, 8] [8] rfl (by decide) ⟨11, by decide⟩)
  have hrun : Run ⟨3, true⟩ start [.tcflush [], .returned [7, 8] 0] ⟨.idle, [], [7, 8]⟩ :=
    ((((hagain.tail (.drained [7, 8] [8] rfl rfl)).tail
      (.write [7, 8] [8] rfl (by decide) 1 (by decide))).tail (.takes [8] [] rfl)).tail
        (.fsync [7, 8] rfl)).tail (.tcflush [7, 8] rfl)
  exact sent_kept_iff hrun (by simp) rfl

end Tty

end ZenohProxy
