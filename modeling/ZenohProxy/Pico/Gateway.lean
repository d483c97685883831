import Mathlib.Data.Finset.Card
import Mathlib.Data.Int.Interval
import ZenohProxy.Lib.Simulation
import ZenohProxy.Pico.Tcp
import ZenohProxy.Tunnel.Send

/-!
# The sockets of the gateway

The proxy of `src-pico` opens a TCP connection when the serial side asks for one.
`_zn_close_tx_session` shuts a socket down and does not close it, and where the address is
refused or nobody answers `_zn_open_tx_session` leaves its socket open too.

`connections_bounded`: each connection costs the process a descriptor for good, so that there
are only ever as many as it has descriptors. `uses_last_connection`: for the same reason what is
sent, received and shut down is never the socket of somebody else, once there has been a
connection.
-/

namespace ZenohProxy

open Labelled

def tcpOpen : UInt8 := 0x4F
def tcpClose : UInt8 := 0x43

/-- What the system answers while `_zn_open_tx_session` runs: the new socket, the `errno` of a
`setsockopt` that fails, and whether the address is one and somebody listens. -/
structure OpenAnswers where
  socket : Option Nat
  keepAlive : Option Int
  linger : Option Int
  inetPton : Bool
  connect : Bool

/-- What is done with descriptors, in order, and what goes down the serial line. -/
inductive GatewayEvent where
  | opened (fd : Int)
  | close (fd : Int)
  | shutdown (fd : Int)
  | watch (fd : Int)
  | unwatch (fd : Int)
  | send (fd : Int) (data : Bytes)
  | recv (fd : Int)
  | toSerial (e : TcpEvent)
  deriving DecidableEq

/-- `_zn_socket_result_t`, as far as the socket is concerned. -/
structure SocketResult where
  ok : Bool
  socket : Int

/-- `r.tag = _z_res_t_ERR; r.value.error = error;`, where `value` may be a union. -/
def SocketResult.setError (shared : Bool) (r : SocketResult) (error : Int) : SocketResult :=
  ⟨false, if shared then error else r.socket⟩

/-- A `setsockopt` that fails. -/
def refuseOption (shared : Bool) (fd : Nat) (errno : Int) : SocketResult × List GatewayEvent :=
  let r := SocketResult.setError shared ⟨true, fd⟩ errno
  ({ r with socket := 0 }, [.opened fd, .close r.socket])

/-- `_zn_open_tx_session`, from the call of `socket` on. -/
def znOpenTxSession (shared : Bool) (a : OpenAnswers) : SocketResult × List GatewayEvent :=
  match a.socket with
  | none => (⟨false, 0⟩, [])
  | some fd =>
    match a.keepAlive with
    | some errno => refuseOption shared fd errno
    | none =>
      match a.linger with
      | some errno => refuseOption shared fd errno
      | none => (if a.inetPton && a.connect then ⟨true, fd⟩ else ⟨false, 0⟩, [.opened fd])

/-- `_zn_close_tx_session`. -/
def znCloseTxSession (sock : Int) : List GatewayEvent := [.shutdown sock]

/-- The session, with the descriptors that the thread watches for it. -/
structure TcpSession where
  socket : Int
  watched : Finset Int

namespace TcpSession

/-- `connect`, which returns `false` when it has succeeded. -/
def connect (shared : Bool) (t : TcpSession) (a : OpenAnswers) :
    TcpSession × List GatewayEvent × Bool :=
  let (result, events) := znOpenTxSession shared a
  if result.ok then
    ({ socket := result.socket, watched := insert result.socket t.watched },
      events ++ [.watch result.socket, .toSerial (.connected true)], false)
  else
    ({ t with watched := t.watched.erase t.socket },
      events ++ [.toSerial (.connected false), .unwatch t.socket], true)

def disconnect (t : TcpSession) : TcpSession × List GatewayEvent :=
  ({ t with watched := t.watched.erase t.socket },
    znCloseTxSession t.socket ++ [.toSerial (.connected false), .unwatch t.socket])

/-- The sink `outgoing`. What `send` does not take is not sent again. -/
def outgoing (t : TcpSession) (data : Bytes) : TcpSession × List GatewayEvent :=
  (t, [.send t.socket data])

/-- `invoke`, on what `recv` answers. -/
def invoke (t : TcpSession) (r : RecvResult) : TcpSession × List GatewayEvent :=
  match r with
  | .received (b :: bs) => (t, [.recv t.socket, .toSerial (.incoming (b :: bs))])
  | _ =>
    let (t, events) := t.disconnect
    (t, .recv t.socket :: events)

/-- `onError`. -/
def onError (t : TcpSession) : TcpSession × List GatewayEvent := t.disconnect

end TcpSession

/-- What can happen to the gateway. `serial.incoming` is never an empty vector. -/
inductive GatewayInput where
  | serial (header : UInt8) (data : Bytes) (a : OpenAnswers)
  | readable (r : RecvResult)
  | error
  | serialConnected (isConnected : Bool)

/-- The flows of `main`. -/
def TcpSession.step (shared : Bool) (t : TcpSession) :
    GatewayInput → TcpSession × List GatewayEvent
  | .serial header data a =>
    if header = tcpOpen then
      let (t, events, _) := t.connect shared a
      (t, events)
    else if header = tcpClose then t.disconnect
    else if header = tcpSend then t.outgoing data
    else (t, [])
  | .readable r => t.invoke r
  | .error => t.onError
  | .serialConnected isConnected => if isConnected then (t, []) else t.disconnect

/-! ## The descriptors of the process -/

/-- The sockets that the process has got and not closed. -/
def hold (held : Finset Int) : GatewayEvent → Finset Int
  | .opened fd => insert fd held
  | .close fd => held.erase fd
  | _ => held

structure TcpGateway where
  tcp : TcpSession
  held : Finset Int

/-- A new descriptor is a number below the limit that is not in use; the thread calls the
session when something is watched for it. -/
def GatewayInput.Admissible (limit : Nat) (g : TcpGateway) : GatewayInput → Prop
  | .serial _ _ a => ∀ fd, a.socket = some fd → fd < limit ∧ (fd : Int) ∉ g.held
  | .readable r => g.tcp.watched.Nonempty ∧ r.rb ≤ 512
  | .error => g.tcp.watched.Nonempty
  | .serialConnected _ => True

/-- A step of the gateway, with the events it makes. -/
inductive GatewayStep (shared : Bool) (limit : Nat) :
    TcpGateway → List GatewayEvent → TcpGateway → Prop where
  | input {g : TcpGateway} (i : GatewayInput) (hi : i.Admissible limit g) :
      GatewayStep shared limit g (g.tcp.step shared i).2
        ⟨(g.tcp.step shared i).1, (g.tcp.step shared i).2.foldl hold g.held⟩

/-- The connections made, each by its socket. -/
def connections (os : List GatewayEvent) : List Int :=
  os.filterMap fun e =>
    match e with
    | .watch fd => some fd
    | _ => none

/-- The descriptor that a system call is made for. -/
def GatewayEvent.uses : GatewayEvent → Option Int
  | .shutdown fd | .send fd _ | .recv fd => some fd
  | _ => none

/-- The socket of the last connection, or what `_socket` was at first. -/
def lastConnection (socket : Int) (os : List GatewayEvent) : Int :=
  (connections os).getLast?.getD socket

/-- How many sockets the system has given. -/
def opens (os : List GatewayEvent) : Nat :=
  os.countP fun e => match e with | .opened _ => true | _ => false

def closes (os : List GatewayEvent) : Nat :=
  os.countP fun e => match e with | .close _ => true | _ => false

/-- No option of a socket is refused, or the error has a place of its own in the result. -/
def ClosesItsOwn (shared : Bool) (os : List GatewayEvent) : Prop :=
  shared = false ∨ ∀ fd, .close fd ∉ os

theorem connections_append (os os' : List GatewayEvent) :
    connections (os ++ os') = connections os ++ connections os' := List.filterMap_append

theorem ClosesItsOwn.left {shared : Bool} {os os' : List GatewayEvent}
    (h : ClosesItsOwn shared (os ++ os')) : ClosesItsOwn shared os :=
  h.imp_right fun hclose fd hmem => hclose fd (List.mem_append_left _ hmem)

theorem ClosesItsOwn.right {shared : Bool} {os os' : List GatewayEvent}
    (h : ClosesItsOwn shared (os ++ os')) : ClosesItsOwn shared os' :=
  h.imp_right fun hclose fd hmem => hclose fd (List.mem_append_right _ hmem)

/-- Only the new sockets are closed, and not all of them. -/
structure Balanced (held : Finset Int) (es : List GatewayEvent) : Prop where
  subset : held ⊆ es.foldl hold held
  card : (es.foldl hold held).card + closes es = held.card + opens es

theorem Balanced.append {held : Finset Int} {os es : List GatewayEvent} (h : Balanced held os)
    (h' : Balanced (os.foldl hold held) es) : Balanced held (os ++ es) := by
  constructor
  · rw [List.foldl_append]
    exact h.subset.trans h'.subset
  · have hcard := h.card
    have hcard' := h'.card
    simp only [closes, opens, List.countP_append, List.foldl_append] at *
    omega

theorem balanced_of_none {held : Finset Int} {es : List GatewayEvent}
    (hheld : es.foldl hold held = held) (hopens : opens es = 0) (hcloses : closes es = 0) :
    Balanced held es :=
  ⟨hheld.symm ▸ Finset.Subset.refl _, by rw [hheld, hopens, hcloses]⟩

/-- What is open has been open before or has been opened. -/
theorem mem_foldl_hold {held : Finset Int} {es : List GatewayEvent} {fd : Int}
    (hfd : fd ∈ es.foldl hold held) : fd ∈ held ∨ .opened fd ∈ es := by
  induction es generalizing held with
  | nil => exact .inl hfd
  | cons e es ih =>
    rcases ih hfd with hfd | hfd
    · cases e with
      | opened fd' =>
        rcases Finset.mem_insert.mp hfd with rfl | hfd
        · exact .inr List.mem_cons_self
        · exact .inl hfd
      | close fd' => exact .inl (Finset.mem_of_mem_erase hfd)
      | _ => exact .inl hfd
    · exact .inr (List.mem_cons_of_mem _ hfd)

/-! ## One step -/

/-- The events of a step without a connection. -/
structure Quiet (shared : Bool) (limit : Nat) (held : Finset Int) (t t' : TcpSession)
    (es : List GatewayEvent) : Prop where
  socket : t'.socket = t.socket
  connections : connections es = []
  reports : .toSerial (.connected true) ∉ es
  /-- Nothing is opened or closed before a descriptor is used. -/
  uses : AtEach (fun before e => ∀ fd, e.uses = some fd →
    fd = t.socket ∧ before.foldl hold held = held) es
  balanced : ClosesItsOwn shared es → Balanced held es
  range : ∀ fd : Int, .opened fd ∈ es → 0 ≤ fd ∧ fd < limit

/-- The events of a connection. -/
def connectionEvents (fd : Int) : List GatewayEvent :=
  [.opened fd, .watch fd, .toSerial (.connected true)]

/-- An event with no socket that is new or closed, for the session's own socket. -/
def GatewayEvent.Steady (socket : Int) : GatewayEvent → Prop
  | .opened _ | .close _ | .watch _ => False
  | .shutdown fd | .send fd _ | .recv fd => fd = socket
  | .unwatch _ => True
  | .toSerial e => e ≠ .connected true

section

variable {shared : Bool} {limit : Nat} {held : Finset Int} {t t' : TcpSession}
  {es : List GatewayEvent}

theorem hold_of_steady (hes : ∀ e ∈ es, e.Steady t.socket) : es.foldl hold held = held := by
  induction es with
  | nil => rfl
  | cons e es ih =>
    obtain ⟨he, hrest⟩ := List.forall_mem_cons.mp hes
    rw [List.foldl_cons]
    cases e <;> first | exact ih hrest | exact he.elim

theorem quiet_of_steady (hsocket : t'.socket = t.socket) (hes : ∀ e ∈ es, e.Steady t.socket) :
    Quiet shared limit held t t' es where
  socket := hsocket
  connections := List.filterMap_eq_nil_iff.mpr fun e he => by
    have hsteady := hes e he
    cases e <;> first | rfl | cases hsteady
  reports hmem := hes _ hmem rfl
  uses before e after hsplit fd hfd := by
    subst hsplit
    have hsteady := hes e (by simp)
    refine ⟨?_, hold_of_steady fun e he => hes e (List.mem_append_left _ he)⟩
    cases e <;> cases hfd <;> exact hsteady
  balanced _ := balanced_of_none (hold_of_steady hes)
    (List.countP_eq_zero.mpr fun e he => by
      have hsteady := hes e he
      cases e <;> first | cases hsteady; done | simp)
    (List.countP_eq_zero.mpr fun e he => by
      have hsteady := hes e he
      cases e <;> first | cases hsteady; done | simp)
  range fd hmem := (hes _ hmem).elim

namespace TcpSession

theorem disconnect_quiet (t : TcpSession) :
    Quiet shared limit held t t.disconnect.1 t.disconnect.2 :=
  quiet_of_steady rfl (by simp [disconnect, znCloseTxSession, GatewayEvent.Steady])

theorem invoke_quiet (t : TcpSession) (r : RecvResult) :
    Quiet shared limit held t (t.invoke r).1 (t.invoke r).2 := by
  unfold invoke
  split
  · exact quiet_of_steady rfl (by simp [GatewayEvent.Steady])
  · exact quiet_of_steady rfl (by simp [disconnect, znCloseTxSession, GatewayEvent.Steady])

/-- A socket that is closed at once, one that is left open, or none. -/
theorem connect_cases (t : TcpSession) {a : OpenAnswers}
    (hfresh : ∀ fd, a.socket = some fd → fd < limit ∧ (fd : Int) ∉ held) :
    (∃ fd : Nat, a.socket = some fd ∧ (t.connect shared a).1.socket = fd ∧
      (t.connect shared a).2.1 = connectionEvents fd) ∨
    Quiet shared limit held t (t.connect shared a).1 (t.connect shared a).2.1 := by
  have hrefused {fd : Nat} (errno : Int) (hfd : fd < limit ∧ (fd : Int) ∉ held)
      (hr : znOpenTxSession shared a = refuseOption shared fd errno) :
      Quiet shared limit held t (t.connect shared a).1 (t.connect shared a).2.1 := by
    simp only [connect, hr, refuseOption, SocketResult.setError]
    refine ⟨rfl, rfl, by simp, by simp [GatewayEvent.uses], fun howns => ?_, by simp [hfd.1]⟩
    rcases howns with rfl | hclose
    · constructor <;> simp [hold, Finset.erase_insert hfd.2, opens, closes]
    · simp at hclose
  cases hsocket : a.socket with
  | none =>
    refine .inr ?_
    simp only [connect, znOpenTxSession, hsocket]
    exact quiet_of_steady rfl (by simp [GatewayEvent.Steady])
  | some fd =>
    have hfd := hfresh fd hsocket
    cases hkeepAlive : a.keepAlive with
    | some errno => exact .inr (hrefused errno hfd (by simp [znOpenTxSession, hsocket, hkeepAlive]))
    | none =>
      cases hlinger : a.linger with
      | some errno =>
        exact .inr (hrefused errno hfd (by simp [znOpenTxSession, hsocket, hkeepAlive, hlinger]))
      | none =>
        by_cases hanswers : (a.inetPton && a.connect) = true
        · refine .inl ⟨fd, rfl, ?_⟩
          simp [connect, znOpenTxSession, hsocket, hkeepAlive, hlinger, hanswers, connectionEvents]
        · refine .inr ?_
          simp only [connect, znOpenTxSession, hsocket, hkeepAlive, hlinger, hanswers]
          refine ⟨rfl, rfl, by simp, by simp [GatewayEvent.uses], fun _ => ?_, by simp [hfd.1]⟩
          constructor <;> simp [hold, hfd.2, opens, closes]

/-- **What one step can do**: make a connection, or none. -/
theorem step_cases (t : TcpSession) (i : GatewayInput) (hi : i.Admissible limit ⟨t, held⟩) :
    (∃ fd : Nat, fd < limit ∧ (fd : Int) ∉ held ∧ (t.step shared i).1.socket = fd ∧
      (t.step shared i).2 = connectionEvents fd) ∨
    Quiet shared limit held t (t.step shared i).1 (t.step shared i).2 := by
  have hnothing : Quiet shared limit held t t [] := quiet_of_steady rfl (by simp)
  cases i with
  | serial header data a =>
    rw [step]
    split
    · rcases t.connect_cases hi with ⟨fd, hfd, hconnected⟩ | hquiet
      · exact .inl ⟨fd, (hi fd hfd).1, (hi fd hfd).2, hconnected⟩
      · exact .inr hquiet
    split
    · exact .inr t.disconnect_quiet
    split
    · exact .inr (quiet_of_steady rfl (by simp [outgoing, GatewayEvent.Steady]))
    · exact .inr hnothing
  | readable r => exact .inr (t.invoke_quiet r)
  | error => exact .inr t.disconnect_quiet
  | serialConnected isConnected =>
    cases isConnected with
    | true => exact .inr hnothing
    | false => exact .inr t.disconnect_quiet

end TcpSession

end

/-! ## Runs -/

/-- What can be said of a history from `g₀` to `g`. -/
structure Accounted (shared : Bool) (limit : Nat) (g₀ : TcpGateway) (os : List GatewayEvent)
    (g : TcpGateway) : Prop where
  socket : g.tcp.socket = lastConnection g₀.tcp.socket os
  held : g.held = os.foldl hold g₀.held
  reports : os.count (.toSerial (.connected true)) = (connections os).length
  range : ∀ fd : Int, .opened fd ∈ os → 0 ≤ fd ∧ fd < limit
  balanced : ClosesItsOwn shared os → Balanced g₀.held os
  /-- The socket of a connection stays open. -/
  kept : ClosesItsOwn shared os → ∀ fd ∈ connections os, fd ∈ g.held
  nodup : ClosesItsOwn shared os → (connections os).Nodup
  uses : AtEach (fun before e => ∀ fd, e.uses = some fd →
    fd = lastConnection g₀.tcp.socket before ∧ (ClosesItsOwn shared before →
      connections before ≠ [] → fd ∈ before.foldl hold g₀.held)) os

section

variable {shared : Bool} {limit : Nat} {g₀ g g' : TcpGateway} {os es : List GatewayEvent}

theorem accounted_nil (g₀ : TcpGateway) : Accounted shared limit g₀ [] g₀ where
  socket := rfl
  held := rfl
  reports := rfl
  range := by simp
  balanced _ := balanced_of_none rfl rfl rfl
  kept := by simp [connections]
  nodup := by simp [connections]
  uses := atEach_nil

theorem lastConnection_append (socket : Int) (os os' : List GatewayEvent) :
    lastConnection socket (os ++ os') = lastConnection (lastConnection socket os) os' := by
  simp only [lastConnection, connections_append, List.getLast?_append]
  cases (connections os').getLast? <;> rfl

/-- The socket of the last connection is one of those that are open. -/
theorem Accounted.lastConnection_mem (h : Accounted shared limit g₀ os g)
    (howns : ClosesItsOwn shared os) (hsome : connections os ≠ []) :
    lastConnection g₀.tcp.socket os ∈ g.held := by
  rw [lastConnection, List.getLast?_eq_some_getLast hsome]
  exact h.kept howns _ (List.getLast_mem hsome)

theorem Accounted.connected (h : Accounted shared limit g₀ os g) {fd : Nat} (hlimit : fd < limit)
    (hfresh : (fd : Int) ∉ g.held) {t : TcpSession} (hsocket : t.socket = fd) :
    Accounted shared limit g₀ (os ++ connectionEvents fd)
      ⟨t, (connectionEvents fd).foldl hold g.held⟩ where
  socket := by
    rw [lastConnection_append]
    exact hsocket
  held := by rw [List.foldl_append, ← h.held]
  reports := by
    rw [List.count_append, h.reports, connections_append, List.length_append]
    rfl
  range fd' hmem := by
    rcases List.mem_append.mp hmem with hmem | hmem
    · exact h.range fd' hmem
    · obtain rfl : fd' = fd := by simpa [connectionEvents] using hmem
      exact ⟨Int.natCast_nonneg fd, Int.ofNat_lt.mpr hlimit⟩
  balanced howns := by
    refine (h.balanced howns.left).append ?_
    rw [← h.held]
    constructor <;> simp [connectionEvents, hold, hfresh, opens, closes]
  kept howns fd' hmem := by
    rw [connections_append] at hmem
    rcases List.mem_append.mp hmem with hmem | hmem
    · exact Finset.mem_insert_of_mem (h.kept howns.left fd' hmem)
    · rw [List.mem_singleton.mp hmem]
      exact Finset.mem_insert_self _ _
  nodup howns := by
    rw [connections_append]
    refine List.nodup_append.mpr ⟨h.nodup howns.left, List.nodup_singleton _, ?_⟩
    rintro a ha b hb rfl
    exact hfresh (List.mem_singleton.mp hb ▸ h.kept howns.left a ha)
  uses := atEach_append.mpr ⟨h.uses, by simp [connectionEvents, GatewayEvent.uses]⟩

theorem Accounted.quiet (h : Accounted shared limit g₀ os g) {t : TcpSession}
    (hquiet : Quiet shared limit g.held g.tcp t es) :
    Accounted shared limit g₀ (os ++ es) ⟨t, es.foldl hold g.held⟩ := by
  have hconnections : connections (os ++ es) = connections os := by
    rw [connections_append, hquiet.connections, List.append_nil]
  constructor
  · rw [lastConnection, hconnections, ← lastConnection, ← h.socket]
    exact hquiet.socket
  · rw [List.foldl_append, ← h.held]
  · rw [List.count_append, List.count_eq_zero_of_not_mem hquiet.reports, h.reports, hconnections]
    rfl
  · exact fun fd hmem => (List.mem_append.mp hmem).elim (h.range fd) (hquiet.range fd)
  · exact fun howns => (h.balanced howns.left).append (h.held ▸ hquiet.balanced howns.right)
  · exact fun howns fd hfd =>
      (hquiet.balanced howns.right).subset (h.kept howns.left fd (hconnections ▸ hfd))
  · exact fun howns => hconnections ▸ h.nodup howns.left
  · refine atEach_append.mpr ⟨h.uses, fun before e after hsplit fd hfd => ?_⟩
    obtain ⟨rfl, hbefore⟩ := hquiet.uses before e after hsplit fd hfd
    have hnone : connections (os ++ before) = connections os := by
      have hall := hquiet.connections
      rw [hsplit, connections_append] at hall
      rw [connections_append, (List.append_eq_nil_iff.mp hall).1, List.append_nil]
    refine ⟨?_, fun howns hsome => ?_⟩
    · rw [lastConnection, hnone, ← lastConnection, h.socket]
    · rw [List.foldl_append, ← h.held, hbefore, h.socket]
      exact h.lastConnection_mem howns.left (hnone ▸ hsome)

theorem Accounted.step (h : Accounted shared limit g₀ os g)
    (hstep : GatewayStep shared limit g es g') : Accounted shared limit g₀ (os ++ es) g' := by
  obtain ⟨i, hi⟩ := hstep
  rcases g.tcp.step_cases i hi with ⟨fd, hlimit, hfresh, hsocket, hes⟩ | hquiet
  · rw [hes]
    exact h.connected hlimit hfresh hsocket
  · exact h.quiet hquiet

theorem Accounted.run (htrace : Trace (GatewayStep shared limit) g₀ os g) :
    Accounted shared limit g₀ os g :=
  htrace.keeps (accounted_nil g₀) fun h hstep => h.step hstep

/-- **Sockets are not given back.** In every run of a gateway that has none at first, those of
all connections ever made are open, each another one, and so is each whose connection has
failed. So there are at most as many attempts as the process may have descriptors, unless an
option was refused, and `TCP_CONNECTED` goes down the line at most as often. -/
theorem connections_bounded (shared : Bool) (limit : Nat) (g₀ g : TcpGateway)
    (os : List GatewayEvent) (hstart : g₀.held = ∅)
    (htrace : Trace (GatewayStep shared limit) g₀ os g) (howns : ClosesItsOwn shared os) :
    (connections os).Nodup ∧ (∀ fd ∈ connections os, fd ∈ g.held) ∧
      os.count (.toSerial (.connected true)) = (connections os).length ∧
      g.held.card + closes os = opens os ∧ g.held.card ≤ limit := by
  have h := Accounted.run htrace
  refine ⟨h.nodup howns, h.kept howns, h.reports, ?_, ?_⟩
  · have hcard := (h.balanced howns).card
    rwa [← h.held, hstart, Finset.card_empty, Nat.zero_add] at hcard
  · have hrange : g.held ⊆ Finset.Ico (0 : Int) limit := by
      intro fd hfd
      rw [h.held, hstart] at hfd
      exact Finset.mem_Ico.mpr (h.range fd ((mem_foldl_hold hfd).resolve_left (by simp)))
    have hcard := Finset.card_le_card hrange
    rwa [Int.card_Ico, sub_zero, Int.toNat_natCast] at hcard

/-- A connection that is closed and made again takes a second descriptor. -/
theorem connections_bounded_two : ∃ (g : TcpGateway) (os : List GatewayEvent),
    os = connectionEvents 3 ++ [.shutdown 3, .toSerial (.connected false), .unwatch 3]
      ++ connectionEvents 4 ∧
    (connections os).Nodup ∧ (∀ fd ∈ connections os, fd ∈ g.held) ∧
      os.count (.toSerial (.connected true)) = (connections os).length ∧
      g.held.card + closes os = opens os ∧ g.held.card ≤ 8 := by
  have hfirst := @GatewayStep.input true 8 ⟨⟨0, ∅⟩, ∅⟩
    (.serial tcpOpen [] ⟨some 3, none, none, true, true⟩) (by simp [GatewayInput.Admissible])
  have hclose := @GatewayStep.input true 8 ⟨⟨3, {3}⟩, {3}⟩
    (.serial tcpClose [] ⟨none, none, none, true, true⟩) (by simp [GatewayInput.Admissible])
  have hsecond := @GatewayStep.input true 8 ⟨⟨3, ∅⟩, {3}⟩
    (.serial tcpOpen [] ⟨some 4, none, none, true, true⟩) (by simp [GatewayInput.Admissible])
  have htrace := ((Trace.single hfirst).trans (Trace.single hclose)).trans (Trace.single hsecond)
  have hclosed : ∀ fd, .close fd ∉ connectionEvents 3
      ++ [.shutdown 3, .toSerial (.connected false), .unwatch 3] ++ connectionEvents 4 := by
    simp [connectionEvents]
  have hbounded := connections_bounded true 8 ⟨⟨0, ∅⟩, ∅⟩ _ _ rfl htrace (.inr hclosed)
  exact ⟨_, _, rfl, hbounded⟩

/-- **Which descriptor is used**: what is sent, received and shut down is the socket of the last
connection, which is open, and before there is one whatever `_socket` was at first. -/
theorem uses_last_connection (shared : Bool) (limit : Nat) (g₀ g : TcpGateway)
    (os : List GatewayEvent) (htrace : Trace (GatewayStep shared limit) g₀ os g) :
    AtEach (fun before e => ∀ fd, e.uses = some fd →
      fd = lastConnection g₀.tcp.socket before ∧ (ClosesItsOwn shared before →
        connections before ≠ [] → fd ∈ before.foldl hold g₀.held)) os :=
  (Accounted.run htrace).uses

end

/-- What is sent after a close goes to the socket that has been shut down. -/
theorem uses_last_connection_closed : ∃ os : List GatewayEvent,
    os = connectionEvents 3 ++ [.shutdown 3, .toSerial (.connected false), .unwatch 3]
      ++ [.send 3 [1]] ∧
    AtEach (fun before e => ∀ fd, e.uses = some fd →
      fd = lastConnection 0 before ∧ (ClosesItsOwn true before →
        connections before ≠ [] → fd ∈ before.foldl hold ∅)) os := by
  have hfirst := @GatewayStep.input true 8 ⟨⟨0, ∅⟩, ∅⟩
    (.serial tcpOpen [] ⟨some 3, none, none, true, true⟩) (by simp [GatewayInput.Admissible])
  have hclose := @GatewayStep.input true 8 ⟨⟨3, {3}⟩, {3}⟩
    (.serial tcpClose [] ⟨none, none, none, true, true⟩) (by simp [GatewayInput.Admissible])
  have hsend := @GatewayStep.input true 8 ⟨⟨3, ∅⟩, {3}⟩
    (.serial tcpSend [1] ⟨none, none, none, true, true⟩) (by simp [GatewayInput.Admissible])
  have htrace := ((Trace.single hfirst).trans (Trace.single hclose)).trans (Trace.single hsend)
  exact ⟨_, rfl, uses_last_connection true 8 ⟨⟨0, ∅⟩, ∅⟩ _ _ htrace⟩

end ZenohProxy
