import ZenohProxy.Lib.Ledger
import ZenohProxy.Lib.Mealy
import ZenohProxy.Lib.Simulation
import ZenohProxy.Serial.Session

/-!
# The descriptor of the serial port

`Serial::connect` opens the port and sets it up; where something fails the new descriptor is
closed again and `_fd` is -1, but `_connected` stays what it was. `SerialSession::connect` does
not look at the answer and has the thread watch whatever is in `_fd`.

`session_descriptors_iff` says for which calls the session holds one descriptor at most, has
just that one watched, and knows whether it is connected, as long as the process runs: each
`connect` has to succeed and to come when there is no connection. The client of the tunnel only
connects through `initSerial`, which sees to the second (`initSerial_port`).
-/

namespace ZenohProxy

open Labelled

/-- The answers of the system while `connect` runs: the new descriptor, and whether each call
that sets it up succeeds. `errno` is what it is when `connect` reads it at its end. -/
structure ConnectAnswers where
  open_ : Option Nat
  isatty : Bool
  tcgetattr : Bool
  cfsetspeed : Bool
  tcsetattr : Bool
  errno : Errno

def ConnectAnswers.setsUp (a : ConnectAnswers) : Bool :=
  a.isatty && a.tcgetattr && a.cfsetspeed && a.tcsetattr

/-- What is done with descriptors: the process gets or closes one, or the thread takes up or
drops those that it watches for the session. -/
inductive DescriptorEvent where
  | opened (fd : Int)
  | close (fd : Int)
  | addInvoker (fd : Int)
  | deleteInvoker (fd : Int)
  deriving DecidableEq

namespace Serial

/-- The constructor. -/
def new : Serial := ⟨-1, false⟩

def connect (s : Serial) (a : ConnectAnswers) : Serial × List DescriptorEvent × Int :=
  match a.open_ with
  | none => ({ s with fd := -1 }, [], a.errno.val)
  | some fd =>
    -- what is not set up is closed, whichever call has failed
    if a.setsUp then
      (⟨fd, true⟩, [.opened fd], 0)
    else ({ s with fd := -1 }, [.opened fd, .close fd], a.errno.val)

/-- `initSerial` of the client. -/
def initSerial (s : Serial) (a : ConnectAnswers) : Serial × List DescriptorEvent :=
  if s.connected then (s, [])
  else
    let (s, events, _) := s.connect a
    (s, events)

end Serial

namespace SerialSession

def connect (s : SerialSession) (a : ConnectAnswers) : SerialSession × List DescriptorEvent :=
  let (serialPort, events, _) := s.serialPort.connect a
  ({ s with serialPort }, events ++ [.addInvoker serialPort.fd])

end SerialSession

/-- A call of the session, with the answers of the system. -/
inductive PortOp where
  | connect (a : ConnectAnswers)
  | disconnect (close : Option Errno)
  | onError (close : Option Errno)

/-- `disconnect` has the invokers dropped first. -/
def SerialSession.act (s : SerialSession) : PortOp → Option (SerialSession × List DescriptorEvent)
  | .connect a => some (s.connect a)
  | .disconnect close => do
    let (s', _) ← s.disconnect close
    some (s', [.deleteInvoker s.serialPort.fd, .close s.serialPort.fd])
  | .onError close => do
    let (s', _) ← s.onError close
    some (s', [.deleteInvoker s.serialPort.fd, .close s.serialPort.fd])

/-! ## What the process holds -/

def DescriptorEvent.entry : DescriptorEvent → Option (Ledger.Entry Int)
  | .opened fd => some (.acquire fd)
  | .close fd => some (.release fd)
  | _ => none

def portLedger (es : List DescriptorEvent) : List (Ledger.Entry Int) :=
  es.filterMap DescriptorEvent.entry

/-- The descriptors that the thread watches. -/
def watch (fds : List Int) : DescriptorEvent → List Int
  | .addInvoker fd => fds ++ [fd]
  | .deleteInvoker fd => fds.filter (· ≠ fd)
  | _ => fds

/-- The process holds the descriptor of the port and no other, and the port knows whether there
is one. -/
structure Serial.Holds (s : Serial) (es : List DescriptorEvent) : Prop where
  connected : s.connected = true ↔ s.fd ≠ -1
  held : Ledger.held (portLedger es) = if s.fd = -1 then 0 else {s.fd}

/-- And just that descriptor is watched. -/
structure SerialSession.Owns (s : SerialSession) (es : List DescriptorEvent) : Prop where
  holds : s.serialPort.Holds es
  watched : es.foldl watch [] = if s.serialPort.fd = -1 then [] else [s.serialPort.fd]

theorem portLedger_append (es es' : List DescriptorEvent) :
    portLedger (es ++ es') = portLedger es ++ portLedger es' := List.filterMap_append

theorem Serial.new_holds : Serial.new.Holds [] := ⟨by decide, rfl⟩

/-- Nothing is held after some events that was not held before, and nothing else is closed. -/
structure Passing (es : List DescriptorEvent) : Prop where
  held : ∀ before, Ledger.held (portLedger (before ++ es)) = Ledger.held (portLedger before)
  clean : ∀ before, Ledger.Clean (portLedger before) → Ledger.Clean (portLedger (before ++ es))
  watched : ∀ fds, es.foldl watch fds = fds

theorem passing_nil : Passing [] where
  held before := by rw [List.append_nil]
  clean before h := by rwa [List.append_nil]
  watched _ := rfl

/-- A descriptor that is closed as soon as there is one. -/
theorem passing_opened (fd : Nat) : Passing [.opened fd, .close fd] := by
  have hentries : portLedger [.opened fd, .close fd] = [.acquire (fd : Int)] ++ [.release fd] :=
    rfl
  refine ⟨fun before => ?_, fun before h => ?_, fun _ => rfl⟩
  · rw [portLedger_append, hentries, ← List.append_assoc, Ledger.held_release,
      Ledger.held_acquire, Multiset.erase_cons_head]
  · rw [portLedger_append, hentries, ← List.append_assoc]
    refine (h.acquires [(fd : Int)]).concat fun fd' hfd' => ?_
    cases hfd'
    rw [List.map_singleton, Ledger.held_acquire]
    exact Multiset.mem_cons_self _ _

section

variable {s : Serial} {es : List DescriptorEvent} {a : ConnectAnswers}

theorem Serial.Holds.fd_eq (h : s.Holds es) (hs : s.connected = false) : s.fd = -1 := by
  by_contra hfd
  rw [h.connected.mpr hfd] at hs
  cases hs

/-- The calls of `connect` that get a descriptor. -/
def ConnectAnswers.Succeed (a : ConnectAnswers) : Prop := a.open_.isSome ∧ a.setsUp = true

/-- **What `connect` can do**: get a descriptor, or none that it keeps. -/
theorem Serial.connect_cases (s : Serial) (a : ConnectAnswers) :
    (a.Succeed ∧ ∃ fd : Nat, s.connect a = (⟨fd, true⟩, [.opened fd], 0)) ∨
    (¬ a.Succeed ∧ ∃ es rc, s.connect a = ({ s with fd := -1 }, es, rc) ∧ Passing es) := by
  unfold connect ConnectAnswers.Succeed
  cases hopen : a.open_ with
  | none => exact .inr ⟨by simp, _, _, rfl, passing_nil⟩
  | some fd =>
    by_cases hup : a.setsUp = true
    · exact .inl ⟨by simp [hup], fd, if_pos hup⟩
    · exact .inr ⟨by simp [hup], _, _, if_neg hup, passing_opened fd⟩

theorem Serial.Holds.connect (h : s.Holds es) (hs : s.connected = false) :
    (s.connect a).1.Holds (es ++ (s.connect a).2.1) := by
  have hheld := h.held
  rw [if_pos (h.fd_eq hs)] at hheld
  rcases s.connect_cases a with ⟨-, fd, hconnect⟩ | ⟨-, es', rc, hconnect, hpassing⟩
  · have hfd : (fd : Int) ≠ -1 := by omega
    rw [hconnect]
    refine ⟨by simp [hfd], ?_⟩
    rw [portLedger_append, show portLedger [.opened (fd : Int)] = [.acquire (fd : Int)] from rfl,
      Ledger.held_acquire, hheld, if_neg hfd]
    rfl
  · rw [hconnect]
    refine ⟨by simp [hs], ?_⟩
    rw [hpassing.held, hheld]
    rfl

/-- **`initSerial`**, called any number of times, neither loses the descriptor of the port nor
takes the port for connected when it is not. -/
theorem Serial.initSerial_port (as : List ConnectAnswers) :
    (Mealy.run initSerial new as).1.Holds (Mealy.run initSerial new as).2 := by
  induction as using List.reverseRecOn with
  | nil => exact new_holds
  | append_singleton as a ih =>
    rw [Mealy.run_append, Mealy.run_singleton]
    by_cases hs : (Mealy.run initSerial new as).1.connected = true
    · simpa [initSerial, hs] using ih
    · simpa [initSerial, hs] using ih.connect (by simpa using hs)

end

/-! ## Runs of the session -/

def SerialSession.new : SerialSession := ⟨.new, []⟩

/-- The session after some calls, and all that was done with descriptors, if the process has not
ended. -/
def sessionRun (ops : List PortOp) : Option (SerialSession × List DescriptorEvent) :=
  ops.foldlM (fun (s, es) op => (s.act op).map fun (s', es') => (s', es ++ es')) (.new, [])

theorem sessionRun_snoc_eq_some {ops : List PortOp} {op : PortOp} {s' : SerialSession}
    {es : List DescriptorEvent} : sessionRun (ops ++ [op]) = some (s', es) ↔
      ∃ s before now, sessionRun ops = some (s, before) ∧ s.act op = some (s', now) ∧
        es = before ++ now := by
  rw [sessionRun, List.foldlM_append, ← sessionRun, Option.bind_eq_bind, Option.bind_eq_some_iff]
  constructor
  · rintro ⟨⟨s, before⟩, hrun, hstep⟩
    obtain ⟨_, hlast, hpure⟩ := Option.bind_eq_some_iff.mp hstep
    cases hpure
    obtain ⟨⟨s₁, now⟩, hact, heq⟩ := Option.map_eq_some_iff.mp hlast
    cases heq
    exact ⟨s, before, now, hrun, hact, rfl⟩
  · rintro ⟨s, before, now, hrun, hact, rfl⟩
    exact ⟨(s, before), hrun, by simp [hact]⟩

namespace SerialSession

variable {s s' : SerialSession} {es es' : List DescriptorEvent}

/-- Whatever is called, a descriptor of the port is one that the process holds. -/
structure Closes (s : SerialSession) (es : List DescriptorEvent) : Prop where
  clean : Ledger.Clean (portLedger es)
  held : s.serialPort.fd ≠ -1 → s.serialPort.fd ∈ Ledger.held (portLedger es)

theorem closes_new : new.Closes [] := ⟨Ledger.clean_nil, fun h => absurd rfl h⟩

/-- What the two ways to disconnect do, if the process goes on. -/
structure Disconnects (s s' : SerialSession) (es : List DescriptorEvent) : Prop where
  fd : s.serialPort.fd ≠ -1
  serialPort : s'.serialPort = ⟨-1, false⟩
  events : es = [.deleteInvoker s.serialPort.fd, .close s.serialPort.fd]

/-- **What a call can do**. -/
theorem act_cases {op : PortOp} (hact : s.act op = some (s', es)) :
    (∃ a, op = .connect a ∧ s.connect a = (s', es)) ∨
      (∀ a, op ≠ .connect a) ∧ Disconnects s s' es := by
  have hdisconnect {close : Option Errno} {outs : List SessionOutput}
      (h : s.disconnect close = some (s', outs)) :
      s.serialPort.fd ≠ -1 ∧ s'.serialPort = ⟨-1, false⟩ := by
    rw [SerialSession.disconnect, Serial.disconnect] at h
    split at h
    · cases h
    · rename_i hcloses
      cases h
      exact ⟨fun hfd => hcloses (.inl hfd), rfl⟩
  cases op with
  | connect a => exact .inl ⟨a, rfl, Option.some.inj hact⟩
  | disconnect close | onError close =>
    obtain ⟨⟨s₁, outs⟩, h, heq⟩ := Option.bind_eq_some_iff.mp hact
    cases heq
    obtain ⟨hfd, hport⟩ := hdisconnect h
    exact .inr ⟨by simp, hfd, hport, rfl⟩

theorem portLedger_addInvoker (es es' : List DescriptorEvent) (fd : Int) :
    portLedger (es ++ (es' ++ [.addInvoker fd])) = portLedger (es ++ es') := by
  simp [portLedger, DescriptorEvent.entry]

theorem portLedger_disconnect (es : List DescriptorEvent) (fd : Int) :
    portLedger (es ++ [.deleteInvoker fd, .close fd]) = portLedger es ++ [.release fd] := by
  rw [portLedger_append]
  rfl

theorem Closes.act (h : s.Closes es) {op : PortOp} (hact : s.act op = some (s', es')) :
    s'.Closes (es ++ es') := by
  rcases act_cases hact with ⟨a, rfl, hconnects⟩ | ⟨-, hfd, hport, rfl⟩
  · rw [connect] at hconnects
    rcases s.serialPort.connect_cases a with ⟨-, fd, hconnect⟩ | ⟨-, es₁, rc, hconnect, hpassing⟩
    · rw [hconnect] at hconnects
      cases hconnects
      refine ⟨?_, fun _ => ?_⟩
      · rw [portLedger_addInvoker, portLedger_append]
        exact h.clean.acquires [(fd : Int)]
      · rw [portLedger_addInvoker, portLedger_append]
        exact (Ledger.held_acquire _ (fd : Int)).symm ▸ Multiset.mem_cons_self _ _
    · rw [hconnect] at hconnects
      cases hconnects
      refine ⟨?_, fun hfd => absurd rfl hfd⟩
      rw [portLedger_addInvoker]
      exact hpassing.clean es h.clean
  · refine ⟨?_, fun hfd => absurd (congrArg Serial.fd hport) hfd⟩
    rw [portLedger_disconnect]
    refine h.clean.concat fun fd hrelease => ?_
    cases hrelease
    exact h.held hfd

theorem Owns.disconnects (h : s.Owns es) (hact : Disconnects s s' es') : s'.Owns (es ++ es') := by
  obtain ⟨hfd, hport, rfl⟩ := hact
  constructor
  · refine ⟨by simp [hport], ?_⟩
    rw [hport, portLedger_disconnect, Ledger.held_release, h.holds.held, if_neg hfd]
    exact Multiset.erase_singleton _
  · rw [hport, List.foldl_append, h.watched, if_neg hfd]
    simp [watch]

theorem Owns.connects (h : s.Owns es) {a : ConnectAnswers}
    (hs : s.serialPort.connected = false) (hsucceed : a.Succeed) :
    (s.connect a).1.Owns (es ++ (s.connect a).2) := by
  rcases s.serialPort.connect_cases a with ⟨-, fd, hport⟩ | ⟨hfails, -⟩
  · have hholds := h.holds.connect (a := a) hs
    have hfd : (fd : Int) ≠ -1 := by omega
    have hwatched := h.watched
    rw [if_pos (h.holds.fd_eq hs)] at hwatched
    rw [hport] at hholds
    rw [connect, hport]
    refine ⟨⟨hholds.connected, ?_⟩, ?_⟩
    · rw [portLedger_addInvoker]
      exact hholds.held
    · rw [List.foldl_append, hwatched, if_neg hfd]
      rfl
  · exact absurd hsucceed hfails

/-- A `connect` that leaves the session in order has come when there was no connection, and has
made one. -/
theorem Owns.of_connect (h : s.Owns es) {a : ConnectAnswers}
    (h' : (s.connect a).1.Owns (es ++ (s.connect a).2)) :
    s.serialPort.connected = false ∧ a.Succeed := by
  have hwatched := h.watched
  rcases s.serialPort.connect_cases a with
    ⟨hsucceed, fd, hconnect⟩ | ⟨-, es', rc, hconnect, hpassing⟩
  · have hfd : (fd : Int) ≠ -1 := by omega
    rw [connect, hconnect] at h'
    have hwatched' := h'.watched
    rw [List.foldl_append, hwatched, if_neg hfd] at hwatched'
    refine ⟨?_, hsucceed⟩
    -- two descriptors would be watched
    by_contra hs
    rw [if_neg (h.holds.connected.mp (by simpa using hs))] at hwatched'
    simp [watch] at hwatched'
  -- nothing watches -1
  · rw [connect, hconnect] at h'
    have hwatched' := h'.watched
    rw [List.foldl_append, List.foldl_append, hpassing.watched, if_pos rfl] at hwatched'
    simp [watch] at hwatched'

theorem owns_new : new.Owns [] := ⟨Serial.new_holds, rfl⟩

end SerialSession

theorem sessionRun_closes {ops : List PortOp} {s : SerialSession} {es : List DescriptorEvent}
    (hrun : sessionRun ops = some (s, es)) : s.Closes es := by
  induction ops using List.reverseRecOn generalizing s es with
  | nil =>
    cases hrun
    exact SerialSession.closes_new
  | append_singleton ops op ih =>
    obtain ⟨s₁, before, now, hbefore, hact, rfl⟩ := sessionRun_snoc_eq_some.mp hrun
    exact (ih hbefore).act hact

/-- **For which calls the session keeps its descriptor**: those in which each `connect` succeeds
and comes when there is no connection. After others a descriptor is lost, or -1 is watched or
read from. As long as the process runs it closes no descriptor that it does not hold. -/
theorem session_descriptors_iff (ops : List PortOp) :
    (∀ s es, sessionRun ops = some (s, es) → Ledger.Clean (portLedger es)) ∧
      ((∀ p, p <+: ops → ∀ s es, sessionRun p = some (s, es) → s.Owns es) ↔
        AtEach (fun before op => ∀ a, op = .connect a → ∀ s es, sessionRun before = some (s, es) →
          s.serialPort.connected = false ∧ a.Succeed) ops) := by
  refine ⟨fun s es hrun => (sessionRun_closes hrun).clean, ?_, ?_⟩
  · rintro hall before _ after rfl a rfl s es hrun
    have hafter := hall (before ++ [.connect a]) (by simp) _ _
      (sessionRun_snoc_eq_some.mpr ⟨s, es, _, hrun, rfl, rfl⟩)
    exact (hall before (List.prefix_append _ _) s es hrun).of_connect hafter
  · intro hconnects p hp
    induction p using List.reverseRecOn with
    | nil =>
      intro s es hrun
      cases hrun
      exact SerialSession.owns_new
    | append_singleton p op ih =>
      intro s' es hrun
      obtain ⟨s, before, now, hbefore, hact, rfl⟩ := sessionRun_snoc_eq_some.mp hrun
      obtain ⟨after, rfl⟩ := hp
      have howns := ih (by simp) s before hbefore
      rcases SerialSession.act_cases hact with ⟨a, rfl, hconnect⟩ | ⟨-, hdisconnects⟩
      · obtain ⟨hs, hsucceed⟩ := hconnects p _ after (by simp) a rfl s before hbefore
        have hkept := howns.connects hs hsucceed
        rwa [hconnect] at hkept
      · exact howns.disconnects hdisconnects

end ZenohProxy
