import ZenohProxy.Lib.Simulation
import ZenohProxy.Pico.Watcher

/-!
# The listeners that are called

`waitIO` looks a listener up when it calls it, and `addFd` does not change an entry of the map.
So the listener that is called for a descriptor is the first that was ever added for it.

`dispatches_current_iff` says when that is the current one, in any use of a watcher: any calls
and waits, any answers of `select`, and any calls that the methods of the listeners make while
`waitIO` goes through the descriptors.
-/

namespace ZenohProxy

open Labelled

namespace Watcher

variable {L : Type}

/-! ## What is asked of `waitIO` -/

/-- The calls of the watcher that were made in some calls of listeners. -/
def callsOf (events : List (ListenerEvent L)) : List (Call L) :=
  events.flatMap ListenerEvent.calls

/-- The listener is the current one for the descriptor when it is called, which `calls` and the
calls made in `before` have gone before. -/
def Current (calls : List (Call L)) (before : List (ListenerEvent L)) (e : ListenerEvent L) :
    Prop :=
  CurrentFor (calls ++ callsOf before) e.fd e.listener

/-- The set that `waitIO` looks a descriptor up in before it calls the method. -/
def asked (rfds efds : Finset Int) : Method → Finset Int
  | .onRxd => rfds
  | .onError => efds

/-- Some listeners are called after `calls`: one for each descriptor in the sets that is
registered when its turn comes, and only current ones. -/
structure Right (calls : List (Call L)) (rfds efds : Finset Int)
    (events : List (ListenerEvent L)) : Prop where
  called : ∀ method : Method, ∀ fd ∈ asked rfds efds method,
    Registered (calls ++ callsOf (events.filter (·.fd < fd))) fd →
      ∃ e ∈ events, e.method = method ∧ e.fd = fd
  current : AtEach (Current calls) events

/-- `waitIO` comes to its end and calls the right listeners. -/
def Dispatches (calls : List (Call L)) (w : Watcher L) (does : Method → Int → List (Call L))
    (rxd error : Int → Bool) : Prop :=
  ∃ events w', w.waitIo does (.ready rxd error) = some (.eIo, events, w') ∧
    Right calls (select w.maxFd w.rfds rxd) (select w.maxFd w.efds error) events

/-! ## The turn of a descriptor -/

/-- The listener that was added last for the descriptor is the one that was added first for it,
and it has not been removed under another descriptor since. -/
def Settled (calls : List (Call L)) (fd : Int) : Prop :=
  ∃ before l after, calls = before ++ .addFd l fd :: after ∧ (∀ l', .addFd l' fd ∉ after) ∧
    firstFor calls fd = some l ∧ ∀ fd', fd' ≠ fd → .removeFd l fd' ∉ after

/-- The calls that a method makes, if it is called. -/
def madeBy (does : Method → Int → List (Call L)) (method : Method) (ready : Finset Int)
    (fd : Int) : List (Call L) :=
  if fd ∈ ready then does method fd else []

/-- The calls that are made at the turn of a descriptor. -/
def madeAt (does : Method → Int → List (Call L)) (rfds efds : Finset Int) (fd : Int) :
    List (Call L) :=
  madeBy does .onRxd rfds fd ++ madeBy does .onError efds fd

/-- The descriptor is settled whenever a method is called for it, and the methods neither
remove it nor leave the `fd_set`. -/
structure Orderly (does : Method → Int → List (Call L)) (rfds efds : Finset Int)
    (calls : List (Call L)) (fd : Int) : Prop where
  onRxd : fd ∈ rfds → Settled calls fd
  onError : fd ∈ efds → Settled (calls ++ madeBy does .onRxd rfds fd) fd
  kept : ∀ l, .removeFd l fd ∉ madeAt does rfds efds fd
  inRange : InRange (madeAt does rfds efds fd)

open Classical in
/-- The calls that have been made when the turn of a descriptor is over. -/
noncomputable def afterTurn (does : Method → Int → List (Call L)) (rfds efds : Finset Int)
    (calls : List (Call L)) (fd : Int) : List (Call L) :=
  if Registered calls fd then calls ++ madeAt does rfds efds fd else calls

/-- Each descriptor that is registered at its turn is settled. -/
def OrderlyAtEach (does : Method → Int → List (Call L)) (rfds efds : Finset Int)
    (calls : List (Call L)) (fds : List Int) : Prop :=
  AtEach (fun before fd => Registered (before.foldl (afterTurn does rfds efds) calls) fd →
    Orderly does rfds efds (before.foldl (afterTurn does rfds efds) calls) fd) fds

theorem callsOf_append (events events' : List (ListenerEvent L)) :
    callsOf (events ++ events') = callsOf events ++ callsOf events' := List.flatMap_append

theorem firstFor_append {calls : List (Call L)} {fd : Int} {l : L}
    (hfirst : firstFor calls fd = some l) (more : List (Call L)) :
    firstFor (calls ++ more) fd = some l := by
  rw [firstFor, List.findSome?_append, ← firstFor, hfirst, Option.some_or]

theorem run_append (calls more : List (Call L)) :
    run (calls ++ more) = (run calls).bind fun w => more.foldlM step w := by
  rw [run, List.foldlM_append]
  rfl

theorem inRange_append {calls more : List (Call L)} :
    InRange (calls ++ more) ↔ InRange calls ∧ InRange more := by
  simp only [InRange, List.mem_append, or_imp, forall_and]
  exact and_and_and_comm

/-- A registered descriptor has a last listener, which was added after its last removal. -/
theorem Registered.last {calls : List (Call L)} {fd : Int} (hreg : Registered calls fd) :
    ∃ before l after, calls = before ++ .addFd l fd :: after ∧
      (∀ l', .addFd l' fd ∉ after) ∧ ∀ l', .removeFd l' fd ∉ after := by
  induction calls using List.reverseRecOn with
  | nil =>
    obtain ⟨before, l, after, heq, -⟩ := hreg
    simp at heq
  | append_singleton calls call ih =>
    cases call with
    | addFd l fd' =>
      by_cases hfd : fd' = fd
      · exact ⟨calls, l, [], by rw [hfd], by simp, by simp⟩
      · rcases registered_addFd.mp hreg with heq | hreg
        · exact absurd heq.symm hfd
        · obtain ⟨before, l', after, rfl, hadds, hremoves⟩ := ih hreg
          exact ⟨before, l', after ++ [.addFd l fd'], by simp, by simp [hadds, Ne.symm hfd],
            by simpa using hremoves⟩
    | removeFd l fd' =>
      obtain ⟨hne, hreg⟩ := registered_removeFd.mp hreg
      obtain ⟨before, l', after, rfl, hadds, hremoves⟩ := ih hreg
      exact ⟨before, l', after ++ [.removeFd l fd'], by simp, by simpa using hadds,
        by simp [hremoves, hne]⟩

/-- There is one last call that adds a descriptor. -/
theorem eq_of_last {before after before' after' : List (Call L)} {l l' : L} {fd : Int}
    (heq : before ++ .addFd l fd :: after = before' ++ .addFd l' fd :: after')
    (hlast : ∀ l'', .addFd l'' fd ∉ after) (hlast' : ∀ l'', .addFd l'' fd ∉ after') :
    l = l' ∧ after = after' := by
  rcases List.append_eq_append_iff.mp heq with ⟨mid, rfl, hmid⟩ | ⟨mid, rfl, hmid⟩
  · rcases List.cons_eq_append_iff.mp hmid with ⟨rfl, hcons⟩ | ⟨mid', rfl, rfl⟩
    · obtain ⟨hcall, rfl⟩ := List.cons_eq_cons.mp hcons
      cases hcall
      exact ⟨rfl, rfl⟩
    · exact absurd (by simp) (hlast l')
  · rcases List.cons_eq_append_iff.mp hmid with ⟨rfl, hcons⟩ | ⟨mid', rfl, rfl⟩
    · obtain ⟨hcall, rfl⟩ := List.cons_eq_cons.mp hcons
      cases hcall
      exact ⟨rfl, rfl⟩
    · exact absurd (by simp) (hlast' l)

/-- **When the first listener is the current one.** -/
theorem currentFor_first_iff {calls : List (Call L)} {fd : Int} {l : L}
    (hreg : Registered calls fd) (hfirst : firstFor calls fd = some l) :
    CurrentFor calls fd l ↔ Settled calls fd := by
  constructor
  · rintro ⟨before, after, heq, hlast, hkept⟩
    exact ⟨before, l, after, heq, hlast, hfirst, fun fd' _ => hkept fd'⟩
  · rintro ⟨before, l', after, heq, hlast, hfirst', hkept⟩
    obtain rfl : l = l' := Option.some.inj (hfirst.symm.trans hfirst')
    refine ⟨before, after, heq, hlast, fun fd' hmem => ?_⟩
    by_cases hfd : fd' = fd
    -- it is registered, so it has not been removed either
    · subst hfd
      obtain ⟨before', l', after', heq', hlast', hkept'⟩ := hreg.last
      obtain ⟨-, rfl⟩ := eq_of_last (heq.symm.trans heq') hlast hlast'
      exact hkept' l hmem
    · exact hkept fd' hfd hmem

/-! ## The loop -/

section

variable {does : Method → Int → List (Call L)} {rfds efds : Finset Int}
  {calls : List (Call L)} {w : Watcher L} {fd : Int} {l : L}

/-- The call of a listener, if there is one. -/
def eventsBy (does : Method → Int → List (Call L)) (method : Method) (ready : Finset Int)
    (fd : Int) (l : L) : List (ListenerEvent L) :=
  if fd ∈ ready then [⟨method, fd, l, does method fd⟩] else []

theorem callsOf_eventsBy (method : Method) (ready : Finset Int) :
    callsOf (eventsBy does method ready fd l) = madeBy does method ready fd := by
  rw [eventsBy, madeBy]
  split <;> simp [callsOf]

theorem mem_eventsBy {method : Method} {ready : Finset Int} (hready : fd ∈ ready) :
    ⟨method, fd, l, does method fd⟩ ∈ eventsBy does method ready fd l := by
  rw [eventsBy, if_pos hready]
  exact List.mem_singleton_self _

theorem notify_eq (hrun : run calls = some w) (hfirst : firstFor calls fd = some l)
    (method : Method) (ready : Finset Int) :
    w.notify does method ready fd = (run (calls ++ madeBy does method ready fd)).map fun w' =>
      (eventsBy does method ready fd l, w') := by
  have hl : w.listeners fd = some l := ((run_follows hrun).listeners fd).trans hfirst
  rw [run_append, hrun, Option.bind_some, notify, madeBy, eventsBy]
  split
  · rw [hl]
    cases (does method fd).foldlM step w <;> rfl
  · rfl

theorem any_erases {made : List (Call L)} :
    (made.any (·.erases fd)) = true ↔ ∃ l, .removeFd l fd ∈ made := by
  rw [List.any_eq_true]
  constructor
  · rintro ⟨call, hmem, herases⟩
    cases call with
    | addFd l fd' => cases herases
    | removeFd l fd' =>
      obtain rfl : fd' = fd := by simpa [Call.erases] using herases
      exact ⟨l, hmem⟩
  · rintro ⟨l, hmem⟩
    exact ⟨_, hmem, by simp [Call.erases]⟩

/-- The turn of a descriptor that is not registered. -/
theorem turn_of_not_registered (hrun : run calls = some w) (hreg : ¬ Registered calls fd) :
    w.turn does rfds efds fd = some ([], w) := by
  rw [turn, if_neg (((run_follows hrun).fd fd).not.mpr hreg)]

/-- **The turn of a registered descriptor**: it calls the first listener. -/
theorem turn_of_registered (hrun : run calls = some w) (hreg : Registered calls fd)
    (hfirst : firstFor calls fd = some l) :
    w.turn does rfds efds fd =
      if (madeAt does rfds efds fd).any (·.erases fd) then none
      else (run (calls ++ madeAt does rfds efds fd)).map fun w' =>
        (eventsBy does .onRxd rfds fd l ++ eventsBy does .onError efds fd l, w') := by
  have herases : ((eventsBy does .onRxd rfds fd l ++ eventsBy does .onError efds fd l).any
      fun e => e.calls.any (·.erases fd)) = (madeAt does rfds efds fd).any (·.erases fd) := by
    rw [← List.any_flatMap, ← callsOf, callsOf_append, callsOf_eventsBy, callsOf_eventsBy, madeAt]
  rw [turn, if_pos (((run_follows hrun).fd fd).mpr hreg), notify_eq hrun hfirst, madeAt,
    ← List.append_assoc]
  cases hrxd : run (calls ++ madeBy does .onRxd rfds fd) with
  | none =>
    rw [run_append _ (madeBy does .onError efds fd), hrxd]
    simp
  | some w₁ =>
    rw [Option.map_some, Option.bind_eq_bind, Option.bind_some]
    dsimp only
    rw [notify_eq hrxd (firstFor_append hfirst _)]
    cases run (calls ++ madeBy does .onRxd rfds fd ++ madeBy does .onError efds fd) with
    | none => simp
    | some w₂ =>
      rw [Option.map_some, Option.bind_some]
      dsimp only
      rw [herases, madeAt]
      rfl

/-- What a turn leaves: the watcher after the calls that were made, and the listeners called,
each for its descriptor. -/
structure Turned (does : Method → Int → List (Call L)) (rfds efds : Finset Int)
    (calls : List (Call L)) (fd : Int) (events : List (ListenerEvent L)) (w' : Watcher L) :
    Prop where
  run : run (calls ++ callsOf events) = some w'
  afterTurn : calls ++ callsOf events = afterTurn does rfds efds calls fd
  own : ∀ e ∈ events, e.fd = fd
  called : ∀ method : Method, fd ∈ asked rfds efds method → Registered calls fd →
    ∃ e ∈ events, e.method = method ∧ e.fd = fd

theorem turned_of_not_registered (hrun : run calls = some w) (hreg : ¬ Registered calls fd) :
    Turned does rfds efds calls fd [] w := by
  refine ⟨?_, ?_, by simp, fun _ _ h => absurd h hreg⟩
  · simpa [callsOf] using hrun
  · simp [callsOf, afterTurn, hreg]

theorem turned_of_registered {w' : Watcher L} (hreg : Registered calls fd)
    (hrun : run (calls ++ madeAt does rfds efds fd) = some w') :
    Turned does rfds efds calls fd
      (eventsBy does .onRxd rfds fd l ++ eventsBy does .onError efds fd l) w' := by
  have hcalls : callsOf (eventsBy does .onRxd rfds fd l ++ eventsBy does .onError efds fd l)
      = madeAt does rfds efds fd := by
    rw [callsOf_append, callsOf_eventsBy, callsOf_eventsBy, madeAt]
  refine ⟨by rwa [hcalls], by rw [hcalls, afterTurn, if_pos hreg], ?_, ?_⟩
  · intro e he
    simp only [eventsBy, List.mem_append] at he
    rcases he with he | he <;>
    · split at he
      · rw [List.mem_singleton.mp he]
      · cases he
  · intro method hready _
    refine ⟨⟨method, fd, l, does method fd⟩, ?_, rfl, rfl⟩
    cases method with
    | onRxd => exact List.mem_append_left _ (mem_eventsBy hready)
    | onError => exact List.mem_append_right _ (mem_eventsBy hready)

theorem turned (hrun : run calls = some w) {events : List (ListenerEvent L)} {w' : Watcher L}
    (hturn : w.turn does rfds efds fd = some (events, w')) :
    Turned does rfds efds calls fd events w' := by
  by_cases hreg : Registered calls fd
  · obtain ⟨l, hfirst⟩ := Option.isSome_iff_exists.mp (firstFor_isSome hreg)
    rw [turn_of_registered hrun hreg hfirst] at hturn
    split at hturn
    · cases hturn
    · obtain ⟨w₁, hrun', hevents⟩ := Option.map_eq_some_iff.mp hturn
      cases hevents
      exact turned_of_registered hreg hrun'
  · rw [turn_of_not_registered hrun hreg] at hturn
    cases hturn
    exact turned_of_not_registered hrun hreg

theorem atEach_eventsBy {P : List (ListenerEvent L) → ListenerEvent L → Prop} (method : Method)
    (ready : Finset Int) : AtEach P (eventsBy does method ready fd l)
      ↔ (fd ∈ ready → P [] ⟨method, fd, l, does method fd⟩) := by
  rw [eventsBy]
  split <;> simp [*]

theorem Registered.append (hreg : Registered calls fd) {more : List (Call L)}
    (hkept : ∀ l, .removeFd l fd ∉ more) : Registered (calls ++ more) fd := by
  obtain ⟨before, l, after, rfl, hafter⟩ := hreg
  refine ⟨before, l, after ++ more, by simp, fun l' hmem => ?_⟩
  exact (List.mem_append.mp hmem).elim (hafter l') (hkept l')

/-- Where the descriptor stays registered, the listeners called are current when it is
settled. -/
theorem atEach_current_iff (hreg : Registered calls fd) (hfirst : firstFor calls fd = some l)
    (hkept : ∀ l, .removeFd l fd ∉ madeAt does rfds efds fd) :
    AtEach (Current calls) (eventsBy does .onRxd rfds fd l ++ eventsBy does .onError efds fd l) ↔
      (fd ∈ rfds → Settled calls fd) ∧
        (fd ∈ efds → Settled (calls ++ madeBy does .onRxd rfds fd) fd) := by
  have hreg' : Registered (calls ++ madeBy does .onRxd rfds fd) fd :=
    hreg.append fun l hmem => hkept l (List.mem_append_left _ hmem)
  rw [atEach_append, atEach_eventsBy, atEach_eventsBy, ← currentFor_first_iff hreg hfirst,
    ← currentFor_first_iff hreg' (firstFor_append hfirst _)]
  simp only [Current, List.append_nil, callsOf_eventsBy]
  simp only [callsOf, List.flatMap_nil, List.append_nil]

/-- **When a turn is right.** -/
theorem turn_right_iff (hrun : run calls = some w) :
    (∃ events w', w.turn does rfds efds fd = some (events, w') ∧
      AtEach (Current calls) events) ↔
    (Registered calls fd → Orderly does rfds efds calls fd) := by
  by_cases hreg : Registered calls fd
  swap
  · rw [turn_of_not_registered hrun hreg]
    exact iff_of_true ⟨[], w, rfl, atEach_nil⟩ fun h => absurd h hreg
  obtain ⟨l, hfirst⟩ := Option.isSome_iff_exists.mp (firstFor_isSome hreg)
  rw [turn_of_registered hrun hreg hfirst]
  constructor
  · rintro ⟨events, w', hturn, hcurrent⟩ -
    split at hturn
    · cases hturn
    rename_i herases
    obtain ⟨w₁, hrun', hevents⟩ := Option.map_eq_some_iff.mp hturn
    cases hevents
    have hkept : ∀ l, .removeFd l fd ∉ madeAt does rfds efds fd := fun l hmem =>
      herases (any_erases.mpr ⟨l, hmem⟩)
    obtain ⟨hrxd, herror⟩ := (atEach_current_iff hreg hfirst hkept).mp hcurrent
    exact ⟨hrxd, herror, hkept, (inRange_append.mp (run_follows hrun').inRange).2⟩
  · intro h
    have horderly := h hreg
    obtain ⟨w', hrun'⟩ := run_isSome
      (inRange_append.mpr ⟨(run_follows hrun).inRange, horderly.inRange⟩)
    have herases : ¬ (madeAt does rfds efds fd).any (·.erases fd) = true := fun hany =>
      let ⟨l, hmem⟩ := any_erases.mp hany
      horderly.kept l hmem
    rw [if_neg herases, hrun']
    exact ⟨_, w', rfl, (atEach_current_iff hreg hfirst horderly.kept).mpr
      ⟨horderly.onRxd, horderly.onError⟩⟩

theorem turns_cons_eq_some {fds : List Int} {events : List (ListenerEvent L)} {w' : Watcher L} :
    turns does rfds efds (fd :: fds) w = some (events, w') ↔
      ∃ now w₁ rest, w.turn does rfds efds fd = some (now, w₁) ∧
        turns does rfds efds fds w₁ = some (rest, w') ∧ events = now ++ rest := by
  rw [turns, Option.bind_eq_bind, Option.bind_eq_some_iff]
  constructor
  · rintro ⟨⟨now, w₁⟩, hturn, hrest⟩
    obtain ⟨⟨rest, w₂⟩, hturns, hevents⟩ := Option.bind_eq_some_iff.mp hrest
    cases hevents
    exact ⟨now, w₁, rest, hturn, hturns, rfl⟩
  · rintro ⟨now, w₁, rest, hturn, hturns, rfl⟩
    refine ⟨(now, w₁), hturn, ?_⟩
    dsimp only
    rw [hturns]
    rfl

/-- What one turn adds to the calls that later turns come after. -/
theorem atEach_current_append {now rest : List (ListenerEvent L)} :
    AtEach (Current calls) (now ++ rest) ↔
      AtEach (Current calls) now ∧ AtEach (Current (calls ++ callsOf now)) rest := by
  have hshift (before : List (ListenerEvent L)) :
      Current calls (now ++ before) = Current (calls ++ callsOf now) before := by
    funext e
    rw [Current, callsOf_append, ← List.append_assoc]
    rfl
  rw [atEach_append]
  simp only [hshift]

theorem orderlyAtEach_cons {fds : List Int} : OrderlyAtEach does rfds efds calls (fd :: fds) ↔
    (Registered calls fd → Orderly does rfds efds calls fd) ∧
      OrderlyAtEach does rfds efds (afterTurn does rfds efds calls fd) fds := by
  rw [OrderlyAtEach, atEach_cons]
  rfl

/-- **When the loop is right.** -/
theorem turns_right_iff (hrun : run calls = some w) (fds : List Int) :
    (∃ events w', turns does rfds efds fds w = some (events, w') ∧
      AtEach (Current calls) events) ↔ OrderlyAtEach does rfds efds calls fds := by
  induction fds generalizing calls w with
  | nil => exact iff_of_true ⟨[], w, rfl, atEach_nil⟩ atEach_nil
  | cons fd fds ih =>
    rw [orderlyAtEach_cons, ← turn_right_iff hrun]
    constructor
    · rintro ⟨events, w', hturns, hcurrent⟩
      obtain ⟨now, w₁, rest, hturn, hrest, rfl⟩ := turns_cons_eq_some.mp hturns
      obtain ⟨hnow, hlater⟩ := atEach_current_append.mp hcurrent
      have hturned := turned hrun hturn
      rw [← hturned.afterTurn]
      exact ⟨⟨now, w₁, hturn, hnow⟩, (ih hturned.run).mp ⟨rest, w', hrest, hlater⟩⟩
    · rintro ⟨⟨now, w₁, hturn, hnow⟩, hlater⟩
      have hturned := turned hrun hturn
      rw [← hturned.afterTurn] at hlater
      obtain ⟨rest, w', hrest, hcurrent⟩ := (ih hturned.run).mpr hlater
      exact ⟨now ++ rest, w', turns_cons_eq_some.mpr ⟨now, w₁, rest, hturn, hrest, rfl⟩,
        atEach_current_append.mpr ⟨hnow, hcurrent⟩⟩

/-- What the loop leaves: the watcher after the calls that were made, and the listeners called,
all those that the sets ask for. -/
structure Turns (rfds efds : Finset Int) (calls : List (Call L)) (fds : List Int)
    (events : List (ListenerEvent L)) (w' : Watcher L) : Prop where
  run : run (calls ++ callsOf events) = some w'
  own : ∀ e ∈ events, e.fd ∈ fds
  called : ∀ method : Method, ∀ fd ∈ fds, fd ∈ asked rfds efds method →
    Registered (calls ++ callsOf (events.filter (·.fd < fd))) fd →
      ∃ e ∈ events, e.method = method ∧ e.fd = fd

theorem turns_spec {fds : List Int} (hfds : fds.Pairwise (· < ·)) (hrun : run calls = some w)
    {events : List (ListenerEvent L)} {w' : Watcher L}
    (hturns : turns does rfds efds fds w = some (events, w')) :
    Turns rfds efds calls fds events w' := by
  induction fds generalizing calls w events with
  | nil =>
    cases hturns
    refine ⟨?_, by simp, by simp⟩
    simpa [callsOf] using hrun
  | cons fd fds ih =>
    obtain ⟨hfirst, hfds⟩ := List.pairwise_cons.mp hfds
    obtain ⟨now, w₁, rest, hturn, hrest, rfl⟩ := turns_cons_eq_some.mp hturns
    have hnow := turned hrun hturn
    have hlater := ih hfds hnow.run hrest
    -- the calls before the first turn, and before a later one
    have hbefore : (now ++ rest).filter (·.fd < fd) = [] := by
      rw [List.filter_eq_nil_iff]
      intro e he
      rcases List.mem_append.mp he with he | he
      · simp [hnow.own e he]
      · have := hfirst _ (hlater.own e he)
        simp only [decide_eq_true_eq]
        omega
    have hafter (fd' : Int) (hmem : fd' ∈ fds) :
        (now ++ rest).filter (·.fd < fd') = now ++ rest.filter (·.fd < fd') := by
      rw [List.filter_append, List.filter_eq_self.mpr]
      intro e he
      have := hfirst fd' hmem
      simpa [hnow.own e he] using this
    refine ⟨?_, ?_, ?_⟩
    · rw [callsOf_append, ← List.append_assoc]
      exact hlater.run
    · intro e he
      rcases List.mem_append.mp he with he | he
      · exact hnow.own e he ▸ List.mem_cons_self
      · exact List.mem_cons_of_mem _ (hlater.own e he)
    · intro method fd' hmem hready hreg
      rcases List.mem_cons.mp hmem with rfl | hmem
      · rw [hbefore] at hreg
        obtain ⟨e, he, hcalled⟩ := hnow.called method hready (by simpa [callsOf] using hreg)
        exact ⟨e, List.mem_append_left _ he, hcalled⟩
      · rw [hafter fd' hmem, callsOf_append, ← List.append_assoc] at hreg
        obtain ⟨e, he, hcalled⟩ := hlater.called method fd' hmem hready hreg
        exact ⟨e, List.mem_append_right _ he, hcalled⟩

theorem fdPlaces_pairwise : fdPlaces.Pairwise (· < ·) := by
  rw [fdPlaces, List.pairwise_map]
  exact List.pairwise_lt_range.imp fun h => Int.ofNat_lt.mpr h

theorem mem_fdPlaces : fd ∈ fdPlaces ↔ 0 ≤ fd ∧ fd < fdSetSize := by
  rw [fdPlaces, List.mem_map]
  constructor
  · rintro ⟨n, hn, rfl⟩
    have := List.mem_range.mp hn
    exact ⟨Int.natCast_nonneg n, by rw [fdSetSize] at *; simp only [Int.ofNat_eq_natCast]; omega⟩
  · rintro ⟨hnonneg, hlt⟩
    exact ⟨fd.toNat, List.mem_range.mpr (by omega), Int.toNat_of_nonneg hnonneg⟩

theorem waitIo_eq_some {rxd error : Int → Bool} {events : List (ListenerEvent L)}
    {w' : Watcher L} : w.waitIo does (.ready rxd error) = some (.eIo, events, w') ↔
      turns does (select w.maxFd w.rfds rxd) (select w.maxFd w.efds error) fdPlaces w
        = some (events, w') := by
  rw [waitIo, Option.bind_eq_bind, Option.bind_eq_some_iff]
  constructor
  · rintro ⟨⟨events', w₁⟩, hturns, heq⟩
    cases heq
    exact hturns
  · exact fun hturns => ⟨_, hturns, rfl⟩

/-- The watcher that `waitIO` leaves is the one after all calls, also those that the methods
have made. -/
theorem waitIo_run (hrun : run calls = some w) {answer : SelectAnswer} {rc : WaitResult}
    {events : List (ListenerEvent L)} {w' : Watcher L}
    (hwait : w.waitIo does answer = some (rc, events, w')) :
    run (calls ++ callsOf events) = some w' := by
  cases answer with
  | timeout | failed =>
    cases hwait
    simpa [callsOf] using hrun
  | ready rxd error =>
    rw [waitIo, Option.bind_eq_bind, Option.bind_eq_some_iff] at hwait
    obtain ⟨⟨events', w₁⟩, hturns, heq⟩ := hwait
    cases heq
    exact (turns_spec fdPlaces_pairwise hrun hturns).run

/-! ## Listeners that keep their descriptors -/

/-- The listener of the call has this descriptor. -/
def Call.IsOf (fdOf : L → Int) : Call L → Prop
  | .addFd l fd => fdOf l = fd
  | .removeFd l fd => fdOf l = fd

instance (fdOf : L → Int) : DecidablePred (Call.IsOf fdOf)
  | .addFd l fd => inferInstanceAs (Decidable (fdOf l = fd))
  | .removeFd l fd => inferInstanceAs (Decidable (fdOf l = fd))

theorem settled_of_fixed {fdOf : L → Int} (hfdOf : Function.Injective fdOf)
    (hcalls : ∀ call ∈ calls, call.IsOf fdOf) (hreg : Registered calls fd) :
    Settled calls fd := by
  obtain ⟨l₀, hfirst⟩ := Option.isSome_iff_exists.mp (firstFor_isSome hreg)
  obtain ⟨before, l, after, rfl, hlast, -⟩ := hreg.last
  have hl : fdOf l = fd := hcalls (.addFd l fd) (by simp)
  obtain rfl : l₀ = l := hfdOf ((hcalls _ (mem_of_firstFor hfirst)).trans hl.symm)
  refine ⟨before, l₀, after, rfl, hlast, hfirst, fun fd' hne hmem => hne ?_⟩
  exact (hcalls (.removeFd l₀ fd') (by simp [hmem])).symm.trans hl

/-- **Distinct listeners with descriptors of their own that never change** are settled all the
time, whichever of them the methods add and remove, so long as none removes itself. -/
theorem orderlyAtEach_of_fixed {fdOf : L → Int} (hfdOf : Function.Injective fdOf)
    (hcalls : ∀ call ∈ calls, call.IsOf fdOf)
    (hdoes : ∀ method fd, ∀ call ∈ does method fd, call.IsOf fdOf ∧ call.erases fd = false ∧
      (0 ≤ call.fd ∧ call.fd < fdSetSize))
    (rfds efds : Finset Int) (fds : List Int) : OrderlyAtEach does rfds efds calls fds := by
  have hmadeBy (method : Method) (ready : Finset Int) (fd : Int) :
      ∀ call ∈ madeBy does method ready fd, call ∈ does method fd := by
    intro call hmem
    rw [madeBy] at hmem
    split at hmem
    · exact hmem
    · cases hmem
  have hmade (fd : Int) : ∀ call ∈ madeAt does rfds efds fd, call.IsOf fdOf ∧
      call.erases fd = false ∧ (0 ≤ call.fd ∧ call.fd < fdSetSize) :=
    List.forall_mem_append.mpr ⟨fun call hmem => hdoes _ _ call (hmadeBy _ _ fd call hmem),
      fun call hmem => hdoes _ _ call (hmadeBy _ _ fd call hmem)⟩
  -- all calls that are made are about the listeners' own descriptors
  have hbefore (before : List Int) :
      ∀ call ∈ before.foldl (afterTurn does rfds efds) calls, call.IsOf fdOf := by
    induction before using List.reverseRecOn with
    | nil => exact hcalls
    | append_singleton before fd ih =>
      rw [List.foldl_append, List.foldl_cons, List.foldl_nil, afterTurn]
      split
      · exact List.forall_mem_append.mpr ⟨ih, fun call hmem => (hmade fd call hmem).1⟩
      · exact ih
  intro before fd after _ hreg
  have hkept (l : L) : .removeFd l fd ∉ madeAt does rfds efds fd := fun hmem => by
    have herases := (hmade fd _ hmem).2.1
    simp [Call.erases] at herases
  refine ⟨fun _ => settled_of_fixed hfdOf (hbefore before) hreg, fun _ => ?_, hkept,
    fun l fd' hmem => (hmade fd _ hmem).2.2⟩
  refine settled_of_fixed hfdOf ?_
    (hreg.append fun l hmem => hkept l (List.mem_append_left _ hmem))
  exact List.forall_mem_append.mpr
    ⟨hbefore before, fun call hmem => (hdoes _ _ call (hmadeBy _ _ fd call hmem)).1⟩

/-! ## The condition -/

/-- One wait. -/
theorem dispatches_iff (hrun : run calls = some w) (does : Method → Int → List (Call L))
    (rxd error : Int → Bool) : Dispatches calls w does rxd error ↔
      OrderlyAtEach does (select w.maxFd w.rfds rxd) (select w.maxFd w.efds error) calls
        fdPlaces := by
  rw [← turns_right_iff hrun]
  constructor
  · rintro ⟨events, w', hwait, hright⟩
    exact ⟨events, w', waitIo_eq_some.mp hwait, hright.current⟩
  · rintro ⟨events, w', hturns, hcurrent⟩
    refine ⟨events, w', waitIo_eq_some.mpr hturns, fun method fd hready hreg => ?_, hcurrent⟩
    have hspec := turns_spec fdPlaces_pairwise hrun hturns
    -- what is in the sets was registered, so it has a place
    have hplace : fd ∈ fdPlaces := by
      have hin : InRange (calls ++ callsOf events) := (run_follows hspec.run).inRange
      refine mem_fdPlaces.mpr (InRange.of_registered ?_ hreg)
      refine fun l fd' hmem => hin l fd' ?_
      refine (List.mem_append.mp hmem).elim (List.mem_append_left _) fun hmem => ?_
      obtain ⟨e, he, hmem⟩ := List.mem_flatMap.mp hmem
      exact List.mem_append_right _ (List.mem_flatMap.mpr ⟨e, List.mem_of_mem_filter he, hmem⟩)
    exact hspec.called method fd hplace hready hreg

end

/-- What a program does with a watcher. -/
inductive Use (L : Type) where
  | call (call : Call L)
  | waitIo (does : Method → Int → List (Call L)) (answer : SelectAnswer)

/-- The watcher with all calls that have been made of it, those that the methods of listeners
have made too. -/
def use (s : List (Call L) × Watcher L) : Use L → Option (List (Call L) × Watcher L)
  | .call call => do
    let w ← s.2.step call
    some (s.1 ++ [call], w)
  | .waitIo does answer => do
    let (_, events, w) ← s.2.waitIo does answer
    some (s.1 ++ callsOf events, w)

def used (uses : List (Use L)) : Option (List (Call L) × Watcher L) := uses.foldlM use ([], new)

/-- `P` holds at each wait that finds something ready, of the calls so far, the watcher, what
the methods do, and what is ready. -/
def AtWaits (P : List (Call L) → Watcher L → (Method → Int → List (Call L)) → (Int → Bool) →
    (Int → Bool) → Prop) (uses : List (Use L)) : Prop :=
  AtEach (fun before u => ∀ does rxd error, u = .waitIo does (.ready rxd error) →
    ∀ calls w, used before = some (calls, w) → P calls w does rxd error) uses

section

variable {uses : List (Use L)} {calls : List (Call L)} {w : Watcher L}

theorem used_snoc (u : Use L) : used (uses ++ [u]) = (used uses).bind fun s => use s u := by
  simp [used, List.foldlM_append]

/-- The watcher is always the one after the calls. -/
theorem used_run (hused : used uses = some (calls, w)) : run calls = some w := by
  induction uses using List.reverseRecOn generalizing calls w with
  | nil =>
    cases hused
    rfl
  | append_singleton uses u ih =>
    rw [used_snoc, Option.bind_eq_some_iff] at hused
    obtain ⟨⟨calls₁, w₁⟩, hbefore, huse⟩ := hused
    have hrun := ih hbefore
    cases u with
    | call call =>
      obtain ⟨w₂, hstep, heq⟩ := Option.bind_eq_some_iff.mp huse
      cases heq
      rw [run_snoc, hrun]
      exact hstep
    | waitIo does answer =>
      obtain ⟨⟨rc, events, w₂⟩, hwait, heq⟩ := Option.bind_eq_some_iff.mp huse
      cases heq
      exact waitIo_run hrun hwait

theorem used_calls (calls : List (Call L)) :
    used (calls.map .call) = (run calls).map fun w => (calls, w) := by
  induction calls using List.reverseRecOn with
  | nil => rfl
  | append_singleton calls call ih =>
    rw [List.map_append, List.map_singleton, used_snoc, ih, run_snoc]
    cases run calls with
    | none => rfl
    | some w =>
      simp only [Option.map_some, Option.bind_some, use]
      cases w.step call <;> rfl

/-- Some calls and a wait. -/
theorem atWaits_calls_waitIo {P : List (Call L) → Watcher L → (Method → Int → List (Call L)) →
      (Int → Bool) → (Int → Bool) → Prop}
    {does : Method → Int → List (Call L)} {rxd error : Int → Bool} :
    AtWaits P (calls.map .call ++ [.waitIo does (.ready rxd error)]) ↔
      ∀ w, run calls = some w → P calls w does rxd error := by
  rw [AtWaits, atEach_append]
  constructor
  · rintro ⟨-, hwait⟩ w hrun
    refine hwait [] _ [] rfl does rxd error rfl calls w ?_
    rw [List.append_nil, used_calls, hrun]
    rfl
  · refine fun h => ⟨?_, ?_⟩
    · rintro before _ after hsplit does' rxd' error' rfl
      have hmem : .waitIo does' (.ready rxd' error') ∈ calls.map Use.call := by simp [hsplit]
      simp at hmem
    · rw [atEach_cons]
      refine ⟨fun does' rxd' error' hu calls' w hused => ?_, atEach_nil⟩
      cases hu
      rw [List.append_nil, used_calls, Option.map_eq_some_iff] at hused
      obtain ⟨w', hrun, heq⟩ := hused
      cases heq
      exact h w hrun

end

/-- **When the events go to the current listeners**, in any use of a watcher, whatever `select`
answers and whatever calls the methods make: at the turn of each registered descriptor that is
ready, the listener that was added last for it has to be the one that was added first, and not
to have been removed under another descriptor, and the methods may not remove the descriptor
they are called for. -/
theorem dispatches_current_iff (uses : List (Use L)) :
    AtWaits Dispatches uses ↔
      AtWaits (fun calls w does rxd error =>
        OrderlyAtEach does (select w.maxFd w.rfds rxd) (select w.maxFd w.efds error) calls
          fdPlaces) uses := by
  constructor
  · intro hall before u after hsplit does rxd error hu calls w hused
    exact (dispatches_iff (used_run hused) does rxd error).mp
      (hall before u after hsplit does rxd error hu calls w hused)
  · intro hall before u after hsplit does rxd error hu calls w hused
    exact (dispatches_iff (used_run hused) does rxd error).mpr
      (hall before u after hsplit does rxd error hu calls w hused)

/-- The method of one listener removes the other, which is ready too. -/
theorem dispatches_current_removing :
    let calls : List (Call Char) := [.addFd 'a' 3, .addFd 'b' 4]
    let does : Method → Int → List (Call Char) :=
      fun _ fd => if fd = 3 then [.removeFd 'b' 4] else []
    (∃ w, run calls = some w) ∧ AtWaits Dispatches
      (calls.map .call ++ [.waitIo does (.ready (fun _ => true) fun _ => true)]) := by
  intro calls does
  have hin : InRange calls := fun l fd hmem => by
    simp only [calls, List.mem_cons, Call.addFd.injEq, List.not_mem_nil, or_false] at hmem
    rcases hmem with ⟨-, rfl⟩ | ⟨-, rfl⟩ <;> decide
  refine ⟨run_isSome hin, (dispatches_current_iff _).mpr (atWaits_calls_waitIo.mpr ?_)⟩
  intro w _
  -- the listeners 'a' and 'b' have the descriptors 3 and 4 throughout
  have hfdOf : Function.Injective fun l : Char => (l.toNat : Int) - 94 := fun l l' h => by
    dsimp only at h
    exact Char.toNat_inj.mp (by omega)
  refine orderlyAtEach_of_fixed hfdOf (by decide) (fun method fd call hmem => ?_) _ _ _
  simp only [does] at hmem
  split at hmem
  · rename_i hfd
    rw [List.mem_singleton.mp hmem, hfd]
    decide
  · cases hmem

/-- A listener that has been removed is called when its descriptor is used again. -/
theorem dispatches_removed :
    let calls : List (Call Char) := [.addFd 'a' 3, .removeFd 'a' 3, .addFd 'b' 3]
    let answer : SelectAnswer := .ready (fun fd => fd = 3) fun _ => false
    ¬ AtWaits Dispatches (calls.map .call ++ [.waitIo (fun _ _ => []) answer]) := by
  intro calls answer hall
  have hin : InRange calls := fun l fd hmem => by
    have hfd : (l = 'a' ∨ l = 'b') ∧ fd = 3 := by simpa [calls, ← or_and_right] using hmem
    exact hfd.2 ▸ by decide
  obtain ⟨w, hrun⟩ := run_isSome hin
  have horderly := (dispatches_iff hrun _ _ _).mp (atWaits_calls_waitIo.mp hall w hrun)
  have hreg : Registered calls 3 := ⟨[.addFd 'a' 3, .removeFd 'a' 3], 'b', [], rfl, by simp⟩
  have hready : 3 ∈ select w.maxFd w.rfds fun fd => fd = 3 := by
    have hrun' : run ([.addFd 'a' 3, .removeFd 'a' 3] ++ [.addFd 'b' 3]) = some w := hrun
    obtain ⟨_, ⟨_, _, -, -, hadded⟩ | ⟨_, _, hcall, -⟩⟩ := run_snoc_cases hrun'
    · have hmem : 3 ∈ w.fd := ((run_follows hrun).fd 3).mpr hreg
      exact (hadded.watches.reports _ 3 hmem (by decide)).1
    · cases hcall
  have hplace : 3 ∈ fdPlaces := mem_fdPlaces.mpr (by decide)
  obtain ⟨before, after, hsplit⟩ := List.append_of_mem hplace
  have hturn := horderly before 3 after hsplit
  dsimp only at hturn
  rw [List.foldl_fixed' (fun fd => by simp [afterTurn, madeAt, madeBy])] at hturn
  obtain ⟨_, l, _, hlast, hlater, hfirst, -⟩ := (hturn hreg).onRxd hready
  obtain rfl : 'a' = l := Option.some.inj hfirst
  have hlast : [Call.addFd 'a' 3, .removeFd 'a' 3] ++ .addFd 'b' 3 :: [] = _ := hlast
  exact absurd (eq_of_last hlast (by simp) hlater).1 (by decide)

end Watcher

end ZenohProxy
