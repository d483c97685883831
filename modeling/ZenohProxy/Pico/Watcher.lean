import Mathlib.Data.Finset.Sort
import Mathlib.Order.Lattice
import Mathlib.Tactic.Common

/-!
# The watcher of descriptors

`Watcher` keeps the set of the registered descriptors, the sets and the bound that it passes to
`select`, and a map from descriptors to listeners. `addFd` and `removeFd` make the sets and the
bound anew from the registered descriptors; `removeFd` leaves out the last increment, and
neither takes a listener out of the map.

`waitIO` calls the listeners of the descriptors that are ready. Their methods may call `addFd`
and `removeFd` in turn, while it goes through the set.

`watches_all_iff` says for which calls every registered descriptor is watched.
-/

namespace ZenohProxy

/-- The descriptors an `fd_set` has room for. -/
def fdSetSize : Int := 1024

/-- `FD_SET`. Outside of the `fd_set` it has no defined behaviour. -/
def fdSet (set : Finset Int) (fd : Int) : Option (Finset Int) :=
  if 0 ≤ fd ∧ fd < fdSetSize then some (insert fd set) else none

/-- What `select` leaves in a set: the descriptors below `nfds` that are ready. -/
def select (nfds : Int) (set : Finset Int) (ready : Int → Bool) : Finset Int :=
  set.filter fun fd => fd < nfds ∧ ready fd

/-- The return values of `waitIO`. -/
inductive WaitResult where
  | eTimedOut
  | eIo
  deriving DecidableEq, Repr

/-- The answer of `select`: zero, a negative value, or which descriptors are ready. -/
inductive SelectAnswer where
  | timeout
  | failed
  | ready (rxd error : Int → Bool)

/-- The methods of a listener that `waitIO` calls. -/
inductive Method where
  | onRxd
  | onError
  deriving DecidableEq

structure Watcher (L : Type) where
  fd : Finset Int
  listeners : Int → Option L
  rfds : Finset Int
  wfds : Finset Int
  efds : Finset Int
  maxFd : Int

namespace Watcher

variable {L : Type}

def new : Watcher L := ⟨∅, fun _ => none, ∅, ∅, ∅, 0⟩

/-- The body of the two loops over `_fd`. -/
def setFd (w : Watcher L) (fd : Int) : Option (Watcher L) := do
  let rfds ← fdSet w.rfds fd
  let efds ← fdSet w.efds fd
  some { w with rfds, efds, maxFd := if w.maxFd < fd then fd else w.maxFd }

/-- The order in which the loops go through `_fd`. -/
def inOrder (w : Watcher L) : List Int := w.fd.sort (· ≤ ·)

@[simp] theorem mem_inOrder {w : Watcher L} {fd : Int} : fd ∈ w.inOrder ↔ fd ∈ w.fd :=
  Finset.mem_sort _

@[simp] theorem inOrder_toFinset (w : Watcher L) : w.inOrder.toFinset = w.fd :=
  Finset.sort_toFinset _ _

def setFds (w : Watcher L) (fds : List Int) : Option (Watcher L) := fds.foldlM setFd w

/-- `emplace` leaves an entry that is there as it is. -/
def emplace (listeners : Int → Option L) (fd : Int) (listener : L) : Int → Option L :=
  if (listeners fd).isSome then listeners else Function.update listeners fd (some listener)

/-- `addFd`, where the listener says that its descriptor is `fd`. -/
def addFd (w : Watcher L) (listener : L) (fd : Int) : Option (Watcher L) := do
  let listeners := emplace w.listeners fd listener
  let w := { w with
    listeners, fd := insert fd w.fd, rfds := ∅, wfds := ∅, efds := ∅, maxFd := 0 }
  let w ← w.setFds w.inOrder
  some { w with maxFd := w.maxFd + 1 }

/-- `removeFd`. The descriptor is erased twice, and the listener not at all. -/
def removeFd (w : Watcher L) (_listener : L) (fd : Int) : Option (Watcher L) :=
  let w := { w with
    fd := (w.fd.erase fd).erase fd, rfds := ∅, wfds := ∅, efds := ∅, maxFd := 0 }
  if w.fd.card ≠ 0 then w.setFds w.inOrder else some w

/-- A call, with what the listener says of its descriptor then. -/
inductive Call (L : Type) where
  | addFd (listener : L) (fd : Int)
  | removeFd (listener : L) (fd : Int)
  deriving DecidableEq

def Call.fd : Call L → Int
  | .addFd _ fd => fd
  | .removeFd _ fd => fd

def step (w : Watcher L) : Call L → Option (Watcher L)
  | .addFd listener fd => w.addFd listener fd
  | .removeFd listener fd => w.removeFd listener fd

/-- Whether an element of `_fd` is erased. -/
def Call.erases (fd : Int) : Call L → Bool
  | .addFd .. => false
  | .removeFd _ fd' => fd' = fd

/-- A call of a listener by `waitIO`, with the calls of the watcher that its method makes. -/
structure ListenerEvent (L : Type) where
  method : Method
  fd : Int
  listener : L
  calls : List (Call L)

/-- `FD_ISSET`, and if it is, the method of the listener in the map. `does` says what the
methods do. A descriptor without a listener would go through the end of the map. -/
def notify (w : Watcher L) (does : Method → Int → List (Call L)) (method : Method)
    (ready : Finset Int) (fd : Int) : Option (List (ListenerEvent L) × Watcher L) :=
  if fd ∈ ready then do
    let listener ← w.listeners fd
    let w ← (does method fd).foldlM step w
    some ([⟨method, fd, listener, does method fd⟩], w)
  else some ([], w)

/-- The body of the loop of `waitIO`, for a descriptor that is in `_fd` when its turn comes. The
loop goes on from this element, so it has no defined behaviour if the element has been erased. -/
def turn (w : Watcher L) (does : Method → Int → List (Call L)) (rfds efds : Finset Int)
    (fd : Int) : Option (List (ListenerEvent L) × Watcher L) :=
  if fd ∈ w.fd then do
    let (rxd, w) ← w.notify does .onRxd rfds fd
    let (error, w) ← w.notify does .onError efds fd
    let events := rxd ++ error
    if events.any fun e => e.calls.any (·.erases fd) then none else some (events, w)
  else some ([], w)

/-- The loop of `waitIO`, where `fds` are the descriptors that can still follow. -/
def turns (does : Method → Int → List (Call L)) (rfds efds : Finset Int) :
    List Int → Watcher L → Option (List (ListenerEvent L) × Watcher L)
  | [], w => some ([], w)
  | fd :: fds, w => do
    let (events, w) ← w.turn does rfds efds fd
    let (rest, w) ← turns does rfds efds fds w
    some (events ++ rest, w)

/-- The descriptors that can be in `_fd`, in its order. -/
def fdPlaces : List Int := (List.range fdSetSize.toNat).map Int.ofNat

/-- `waitIO`, on what `select` answers. The loop works on copies of the sets. -/
def waitIo (w : Watcher L) (does : Method → Int → List (Call L)) :
    SelectAnswer → Option (WaitResult × List (ListenerEvent L) × Watcher L)
  | .timeout => some (.eTimedOut, [], w)
  | .failed => some (.eIo, [], w)
  | .ready rxd error => do
    let rfds := select w.maxFd w.rfds rxd
    let efds := select w.maxFd w.efds error
    let (events, w) ← turns does rfds efds fdPlaces w
    some (.eIo, events, w)

/-- The watcher after some calls, if they keep within the `fd_set`. -/
def run (calls : List (Call L)) : Option (Watcher L) := calls.foldlM step new

theorem run_snoc (calls : List (Call L)) (call : Call L) :
    run (calls ++ [call]) = (run calls).bind fun w => w.step call := by
  simp [run, List.foldlM_append]

/-! ## What the calls ask for -/

/-- The descriptor has been added and not been removed since. -/
def Registered (calls : List (Call L)) (fd : Int) : Prop :=
  ∃ before l after, calls = before ++ .addFd l fd :: after ∧ ∀ l', .removeFd l' fd ∉ after

/-- The listener is the last that was added for the descriptor, and has not been removed
since. -/
def CurrentFor (calls : List (Call L)) (fd : Int) (l : L) : Prop :=
  ∃ before after, calls = before ++ .addFd l fd :: after ∧
    (∀ l', .addFd l' fd ∉ after) ∧ ∀ fd', .removeFd l fd' ∉ after

/-- Every descriptor that is added has a place in an `fd_set`. -/
def InRange (calls : List (Call L)) : Prop :=
  ∀ l fd, .addFd l fd ∈ calls → 0 ≤ fd ∧ fd < fdSetSize

/-- Where an entry of a list with one more entry stands. -/
theorem snoc_eq_append_cons {α : Type} {xs before after : List α} {x y : α} :
    xs ++ [x] = before ++ y :: after ↔
      (after = [] ∧ xs = before ∧ x = y) ∨
        ∃ after', after = after' ++ [x] ∧ xs = before ++ y :: after' := by
  constructor
  · intro heq
    rcases List.eq_nil_or_concat after with rfl | ⟨after', z, rfl⟩
    · obtain ⟨hinit, hlast⟩ := List.append_inj' heq rfl
      exact .inl ⟨rfl, hinit, List.head_eq_of_cons_eq hlast⟩
    · rw [List.concat_eq_append, ← List.cons_append, ← List.append_assoc] at heq
      obtain ⟨hinit, hlast⟩ := List.append_inj' heq rfl
      rw [← List.head_eq_of_cons_eq hlast, List.concat_eq_append]
      exact .inr ⟨after', rfl, hinit⟩
  · rintro (⟨rfl, rfl, rfl⟩ | ⟨after', rfl, rfl⟩) <;> simp

theorem registered_addFd {calls : List (Call L)} {l : L} {fd fd' : Int} :
    Registered (calls ++ [.addFd l fd]) fd' ↔ fd' = fd ∨ Registered calls fd' := by
  constructor
  · rintro ⟨before, l', after, heq, hkept⟩
    rcases snoc_eq_append_cons.mp heq with ⟨-, -, hlast⟩ | ⟨after', rfl, rfl⟩
    · cases hlast
      exact .inl rfl
    · exact .inr ⟨before, l', after', rfl, fun l'' hmem => hkept l'' (by simp [hmem])⟩
  · rintro (rfl | ⟨before, l', after, rfl, hkept⟩)
    · exact ⟨calls, l, [], rfl, by simp⟩
    · exact ⟨before, l', after ++ [.addFd l fd], by simp, by simpa using hkept⟩

theorem registered_removeFd {calls : List (Call L)} {l : L} {fd fd' : Int} :
    Registered (calls ++ [.removeFd l fd]) fd' ↔ fd' ≠ fd ∧ Registered calls fd' := by
  constructor
  · rintro ⟨before, l', after, heq, hkept⟩
    rcases snoc_eq_append_cons.mp heq with ⟨-, -, hlast⟩ | ⟨after', rfl, rfl⟩
    · cases hlast
    · refine ⟨?_, before, l', after', rfl, fun l'' hmem => hkept l'' (by simp [hmem])⟩
      rintro rfl
      exact hkept l (by simp)
  · rintro ⟨hne, before, l', after, rfl, hkept⟩
    exact ⟨before, l', after ++ [.removeFd l fd], by simp, by simp [hkept, hne]⟩

theorem InRange.of_registered {calls : List (Call L)} {fd : Int} (h : InRange calls)
    (hreg : Registered calls fd) : 0 ≤ fd ∧ fd < fdSetSize := by
  obtain ⟨before, l, after, rfl, -⟩ := hreg
  exact h l fd (by simp)

theorem InRange.of_prefix {calls p : List (Call L)} (h : InRange calls) (hp : p <+: calls) :
    InRange p :=
  fun l fd hmem => h l fd (hp.subset hmem)

/-- The listener that was added first for a descriptor. -/
def firstFor (calls : List (Call L)) (fd : Int) : Option L :=
  calls.findSome? fun call =>
    match call with
    | .addFd l fd' => if fd' = fd then some l else none
    | .removeFd .. => none

theorem firstFor_snoc (calls : List (Call L)) (call : Call L) (fd : Int) :
    firstFor (calls ++ [call]) fd = (firstFor calls fd).or (firstFor [call] fd) :=
  List.findSome?_append

theorem firstFor_isSome {calls : List (Call L)} {fd : Int} (hreg : Registered calls fd) :
    (firstFor calls fd).isSome := by
  obtain ⟨before, l, after, rfl, -⟩ := hreg
  rw [firstFor, List.findSome?_isSome_iff]
  exact ⟨.addFd l fd, by simp, by simp⟩

theorem mem_of_firstFor {calls : List (Call L)} {fd : Int} {l : L}
    (hfirst : firstFor calls fd = some l) : .addFd l fd ∈ calls := by
  obtain ⟨call, hmem, hcall⟩ := List.exists_of_findSome?_eq_some hfirst
  cases call with
  | addFd l' fd' =>
    dsimp only at hcall
    split at hcall
    · rename_i heq
      cases hcall
      exact heq ▸ hmem
    · cases hcall
  | removeFd l' fd' => cases hcall

/-! ## What the watcher keeps -/

/-- Both sets are made of the registered descriptors, and `top` is the highest of them, or
zero. -/
structure Holds (w : Watcher L) (top : Int) : Prop where
  rfds : w.rfds = w.fd
  efds : w.efds = w.fd
  nonneg : 0 ≤ top
  le : ∀ fd ∈ w.fd, fd ≤ top
  attained : top = 0 ∨ top ∈ w.fd

/-- **The loop over the descriptors**. -/
theorem setFds_eq {fds : List Int} (hfds : ∀ fd ∈ fds, 0 ≤ fd ∧ fd < fdSetSize)
    (w : Watcher L) :
    w.setFds fds = some { w with
      rfds := w.rfds ∪ fds.toFinset, efds := w.efds ∪ fds.toFinset
      maxFd := fds.foldl max w.maxFd } := by
  induction fds generalizing w with
  | nil => simp [setFds]
  | cons fd fds ih =>
    have hfd := hfds fd List.mem_cons_self
    have hset : w.setFd fd = some { w with
        rfds := insert fd w.rfds, efds := insert fd w.efds, maxFd := max w.maxFd fd } := by
      simp [setFd, fdSet, hfd, max_def_lt]
    rw [setFds, List.foldlM_cons, hset, Option.bind_eq_bind, Option.bind_some]
    refine (ih (fun fd' hmem => hfds fd' (List.mem_cons_of_mem _ hmem)) _).trans ?_
    simp [Finset.insert_union, Finset.union_insert]

theorem foldl_max_spec (fds : List Int) (top : Int) :
    top ≤ fds.foldl max top ∧ (∀ fd ∈ fds, fd ≤ fds.foldl max top) ∧
      (fds.foldl max top = top ∨ fds.foldl max top ∈ fds) := by
  induction fds generalizing top with
  | nil => simp
  | cons fd fds ih =>
    obtain ⟨hle, hall, hattained⟩ := ih (max top fd)
    refine ⟨le_trans (le_max_left _ _) hle, ?_, ?_⟩
    · intro fd' hmem
      rcases List.mem_cons.mp hmem with rfl | hmem
      · exact le_trans (le_max_right _ _) hle
      · exact hall fd' hmem
    · rcases hattained with heq | hmem
      · rcases max_choice top fd with htop | hfd
        · exact .inl (heq.trans htop)
        · exact .inr (List.mem_cons.mpr (.inl (heq.trans hfd)))
      · exact .inr (List.mem_cons_of_mem _ hmem)

theorem setFds_inRange {fds : List Int} {w w' : Watcher L} (h : w.setFds fds = some w') :
    ∀ fd ∈ fds, 0 ≤ fd ∧ fd < fdSetSize := by
  induction fds generalizing w with
  | nil => simp
  | cons fd fds ih =>
    rw [setFds, List.foldlM_cons, Option.bind_eq_bind, Option.bind_eq_some_iff] at h
    obtain ⟨w₁, hset, hrest⟩ := h
    have hfd : 0 ≤ fd ∧ fd < fdSetSize := by
      by_contra hout
      simp [setFd, fdSet, hout] at hset
    intro fd' hmem
    rcases List.mem_cons.mp hmem with rfl | hmem
    · exact hfd
    · exact ih hrest fd' hmem

/-- The sets and the bound made anew from the registered descriptors. -/
theorem setFds_remakes (w : Watcher L) (hrfds : w.rfds = ∅) (hefds : w.efds = ∅)
    (hmax : w.maxFd = 0) (hfds : ∀ fd ∈ w.fd, 0 ≤ fd ∧ fd < fdSetSize) :
    ∃ w', w.setFds w.inOrder = some w' ∧ w'.fd = w.fd ∧
      w'.listeners = w.listeners ∧ w'.Holds w'.maxFd := by
  have hsorted : ∀ fd ∈ w.inOrder, 0 ≤ fd ∧ fd < fdSetSize := fun fd hmem =>
    hfds fd (mem_inOrder.mp hmem)
  refine ⟨_, setFds_eq hsorted w, rfl, rfl, ?_⟩
  obtain ⟨hle, hall, hattained⟩ := foldl_max_spec w.inOrder w.maxFd
  constructor
  · simp [hrfds]
  · simp [hefds]
  · exact hmax ▸ hle
  · intro fd hmem
    exact hall fd (mem_inOrder.mpr hmem)
  · refine hattained.imp (fun heq => ?_) fun hmem => mem_inOrder.mp hmem
    exact heq.trans hmax

/-- What `addFd` does, when it keeps within the `fd_set`. -/
structure Added (w : Watcher L) (l : L) (n : Int) (w' : Watcher L) : Prop where
  fd : w'.fd = insert n w.fd
  listeners : w'.listeners = emplace w.listeners n l
  holds : w'.Holds (w'.maxFd - 1)

/-- What `removeFd` does: the bound is the highest descriptor. -/
structure Removed (w : Watcher L) (n : Int) (w' : Watcher L) : Prop where
  fd : w'.fd = w.fd.erase n
  listeners : w'.listeners = w.listeners
  holds : w'.Holds w'.maxFd

theorem addFd_spec (w : Watcher L) (l : L) {fd : Int}
    (hfds : ∀ fd' ∈ w.fd, 0 ≤ fd' ∧ fd' < fdSetSize) (hfd : 0 ≤ fd ∧ fd < fdSetSize) :
    ∃ w', w.addFd l fd = some w' ∧ Added w l fd w' := by
  obtain ⟨w', hset, hsame, hlisteners, hholds⟩ := setFds_remakes
    { w with
      listeners := emplace w.listeners fd l, fd := insert fd w.fd
      rfds := ∅, wfds := ∅, efds := ∅, maxFd := 0 } rfl rfl rfl
    (fun fd' hmem => (Finset.mem_insert.mp hmem).elim (fun heq => heq ▸ hfd) (hfds fd'))
  refine ⟨{ w' with maxFd := w'.maxFd + 1 }, ?_, hsame, hlisteners, ?_⟩
  · simp only [addFd, hset, Option.bind_eq_bind, Option.bind_some]
  · rw [Int.add_sub_cancel]
    exact ⟨hholds.rfds, hholds.efds, hholds.nonneg, hholds.le, hholds.attained⟩

theorem addFd_inRange {w w' : Watcher L} {l : L} {fd : Int} (h : w.addFd l fd = some w') :
    0 ≤ fd ∧ fd < fdSetSize := by
  simp only [addFd, Option.bind_eq_bind, Option.bind_eq_some_iff] at h
  obtain ⟨w₁, hset, -⟩ := h
  exact setFds_inRange hset fd (by simp)

theorem removeFd_spec (w : Watcher L) (l : L) (fd : Int)
    (hfds : ∀ fd' ∈ w.fd, 0 ≤ fd' ∧ fd' < fdSetSize) :
    ∃ w', w.removeFd l fd = some w' ∧ Removed w fd w' := by
  rw [removeFd]
  dsimp only
  rw [Finset.erase_idem]
  split
  · obtain ⟨w', hset, hsame, hlisteners, hholds⟩ := setFds_remakes
      { w with fd := w.fd.erase fd, rfds := ∅, wfds := ∅, efds := ∅, maxFd := 0 } rfl rfl rfl
      (fun fd' hmem => hfds fd' (Finset.mem_of_mem_erase hmem))
    exact ⟨w', hset, hsame, hlisteners, hholds⟩
  · rename_i hempty
    have hempty : w.fd.erase fd = ∅ := Finset.card_eq_zero.mp (not_not.mp hempty)
    exact ⟨_, rfl, rfl, rfl, ⟨hempty.symm, hempty.symm, le_rfl, by simp [hempty], .inl rfl⟩⟩

/-! ## What a run keeps -/

/-- The two containers after some calls. -/
structure Follows (calls : List (Call L)) (w : Watcher L) : Prop where
  inRange : InRange calls
  fd : ∀ fd, fd ∈ w.fd ↔ Registered calls fd
  listeners : ∀ fd, w.listeners fd = firstFor calls fd

theorem Follows.fd_inRange {calls : List (Call L)} {w : Watcher L} (h : Follows calls w) :
    ∀ fd ∈ w.fd, 0 ≤ fd ∧ fd < fdSetSize :=
  fun fd hmem => h.inRange.of_registered ((h.fd fd).mp hmem)

theorem inRange_addFd {calls : List (Call L)} {l : L} {fd : Int} :
    InRange (calls ++ [.addFd l fd]) ↔ InRange calls ∧ 0 ≤ fd ∧ fd < fdSetSize := by
  constructor
  · exact fun h => ⟨h.of_prefix (List.prefix_append ..), h l fd (by simp)⟩
  · rintro ⟨h, hfd⟩ l' fd' hmem
    rcases List.mem_append.mp hmem with hmem | hmem
    · exact h l' fd' hmem
    · cases List.mem_singleton.mp hmem
      exact hfd

theorem inRange_removeFd {calls : List (Call L)} {l : L} {fd : Int} :
    InRange (calls ++ [.removeFd l fd]) ↔ InRange calls := by
  simp [InRange]

theorem Follows.added {calls : List (Call L)} {w w' : Watcher L} {l : L} {fd : Int}
    (h : Follows calls w) (hfd : 0 ≤ fd ∧ fd < fdSetSize) (hadded : Added w l fd w') :
    Follows (calls ++ [.addFd l fd]) w' where
  inRange := inRange_addFd.mpr ⟨h.inRange, hfd⟩
  fd fd' := by rw [hadded.fd, Finset.mem_insert, h.fd, registered_addFd]
  listeners fd' := by
    rw [hadded.listeners, firstFor_snoc, ← h.listeners, emplace]
    by_cases hsame : fd = fd'
    · subst hsame
      cases hfound : w.listeners fd <;> simp [firstFor, hfound]
    · split <;> simp [firstFor, hsame, Ne.symm hsame]

theorem Follows.removed {calls : List (Call L)} {w w' : Watcher L} {l : L} {fd : Int}
    (h : Follows calls w) (hremoved : Removed w fd w') :
    Follows (calls ++ [.removeFd l fd]) w' where
  inRange := inRange_removeFd.mpr h.inRange
  fd fd' := by rw [hremoved.fd, Finset.mem_erase, h.fd, registered_removeFd]
  listeners fd' := by
    rw [hremoved.listeners, firstFor_snoc, ← h.listeners]
    simp [firstFor]

/-- **What a call does**. -/
theorem Follows.step_cases {calls : List (Call L)} {w w' : Watcher L} {call : Call L}
    (h : Follows calls w) (hstep : w.step call = some w') :
    (∃ l fd, call = .addFd l fd ∧ (0 ≤ fd ∧ fd < fdSetSize) ∧ Added w l fd w') ∨
      ∃ l fd, call = .removeFd l fd ∧ Removed w fd w' := by
  cases call with
  | addFd l fd =>
    have hfd := addFd_inRange hstep
    obtain ⟨w₁, hstep₁, hadded⟩ := w.addFd_spec l h.fd_inRange hfd
    cases hstep.symm.trans hstep₁
    exact .inl ⟨l, fd, rfl, hfd, hadded⟩
  | removeFd l fd =>
    obtain ⟨w₁, hstep₁, hremoved⟩ := w.removeFd_spec l fd h.fd_inRange
    cases hstep.symm.trans hstep₁
    exact .inr ⟨l, fd, rfl, hremoved⟩

theorem run_follows {calls : List (Call L)} {w : Watcher L} (hrun : run calls = some w) :
    Follows calls w := by
  induction calls using List.reverseRecOn generalizing w with
  | nil =>
    cases hrun
    exact ⟨by simp [InRange], by simp [new, Registered], fun _ => rfl⟩
  | append_singleton calls call ih =>
    rw [run_snoc, Option.bind_eq_some_iff] at hrun
    obtain ⟨w₁, hbefore, hstep⟩ := hrun
    have h := ih hbefore
    rcases h.step_cases hstep with ⟨l, fd, rfl, hfd, hadded⟩ | ⟨l, fd, rfl, hremoved⟩
    · exact h.added hfd hadded
    · exact h.removed hremoved

/-- The last call of a run. -/
theorem run_snoc_cases {calls : List (Call L)} {call : Call L} {w' : Watcher L}
    (hrun : run (calls ++ [call]) = some w') :
    ∃ w, (∃ l fd, call = .addFd l fd ∧ (0 ≤ fd ∧ fd < fdSetSize) ∧ Added w l fd w') ∨
      ∃ l fd, call = .removeFd l fd ∧ Removed w fd w' := by
  rw [run_snoc, Option.bind_eq_some_iff] at hrun
  obtain ⟨w, hbefore, hstep⟩ := hrun
  exact ⟨w, (run_follows hbefore).step_cases hstep⟩

/-- The calls keep within the `fd_set` where every descriptor that is added does. -/
theorem run_isSome {calls : List (Call L)} (hcalls : InRange calls) :
    ∃ w, run calls = some w := by
  induction calls using List.reverseRecOn with
  | nil => exact ⟨_, rfl⟩
  | append_singleton calls call ih =>
    obtain ⟨w, hrun⟩ := ih (hcalls.of_prefix (List.prefix_append ..))
    have h := run_follows hrun
    rw [run_snoc, hrun, Option.bind_some]
    cases call with
    | addFd l fd =>
      obtain ⟨w', hstep, -⟩ := w.addFd_spec l h.fd_inRange (inRange_addFd.mp hcalls).2
      exact ⟨w', hstep⟩
    | removeFd l fd =>
      obtain ⟨w', hstep, -⟩ := w.removeFd_spec l fd h.fd_inRange
      exact ⟨w', hstep⟩

/-! ## Which descriptors are watched -/

/-- Both sets are the registered descriptors, the bound is above each of them, and `select`
reports those that are ready. -/
structure Watches (w : Watcher L) : Prop where
  rfds : w.rfds = w.fd
  efds : w.efds = w.fd
  bound : ∀ fd ∈ w.fd, fd < w.maxFd
  reports : ∀ ready : Int → Bool, ∀ fd ∈ w.fd, ready fd →
    fd ∈ select w.maxFd w.rfds ready ∧ fd ∈ select w.maxFd w.efds ready

/-- After each of the calls every registered descriptor is watched. -/
def WatchesAll (calls : List (Call L)) : Prop :=
  ∀ before, before <+: calls → ∃ w, run before = some w ∧ w.Watches

theorem Holds.watches_iff {w : Watcher L} {top : Int} (h : w.Holds top) :
    w.Watches ↔ ∀ fd ∈ w.fd, fd < w.maxFd := by
  refine ⟨Watches.bound, fun hbound => ⟨h.rfds, h.efds, hbound, fun ready fd hfd hready => ?_⟩⟩
  rw [h.rfds, h.efds]
  exact ⟨by simp [select, hfd, hbound fd hfd, hready], by simp [select, hfd, hbound fd hfd, hready]⟩

theorem Added.watches {w w' : Watcher L} {l : L} {fd : Int} (h : Added w l fd w') :
    w'.Watches :=
  h.holds.watches_iff.mpr fun fd' hmem => by
    have := h.holds.le fd' hmem
    omega

/-- With the highest descriptor for a bound, nothing may be registered. -/
theorem Removed.watches_iff {w w' : Watcher L} {fd : Int} (h : Removed w fd w')
    (hnonneg : ∀ fd' ∈ w'.fd, 0 ≤ fd') : w'.Watches ↔ w'.fd = ∅ := by
  rw [h.holds.watches_iff]
  constructor
  · intro hbound
    rw [Finset.eq_empty_iff_forall_notMem]
    intro fd' hmem
    rcases h.holds.attained with hzero | htop
    · have hlt := hbound fd' hmem
      have hle := hnonneg fd' hmem
      omega
    · exact lt_irrefl _ (hbound _ htop)
  · rintro hempty fd' hmem
    simp [hempty] at hmem

/-- A descriptor that stays registered at a removal is no longer watched, or another is not. -/
theorem not_watchesAll_of_removeFd {before after : List (Call L)} {l : L} {fd fd' : Int}
    (hreg : Registered before fd') (hne : fd' ≠ fd) :
    ¬ WatchesAll (before ++ .removeFd l fd :: after) := by
  intro hall
  obtain ⟨w', hrun', hwatches⟩ := hall (before ++ [.removeFd l fd]) (by simp)
  have h' := run_follows hrun'
  obtain ⟨w, ⟨_, _, hcall, -⟩ | ⟨_, _, hcall, hremoved⟩⟩ := run_snoc_cases hrun' <;> cases hcall
  have hempty := (hremoved.watches_iff fun fd' hmem => (h'.fd_inRange fd' hmem).1).mp hwatches
  have hmem : fd' ∈ w'.fd := (h'.fd fd').mpr (registered_removeFd.mpr ⟨hne, hreg⟩)
  simp [hempty] at hmem

/-- **Which calls leave every registered descriptor watched**: those that add descriptors an
`fd_set` has room for only, and that remove a descriptor only when no other is registered. -/
theorem watches_all_iff (calls : List (Call L)) (hcalls : ∀ call ∈ calls, 0 ≤ call.fd) :
    WatchesAll calls ↔
      (∀ l fd, .addFd l fd ∈ calls → fd < fdSetSize) ∧
        ∀ before l fd after, calls = before ++ .removeFd l fd :: after →
          ∀ fd', Registered before fd' → fd' = fd := by
  constructor
  · intro hall
    obtain ⟨w, hrun, -⟩ := hall calls List.prefix_rfl
    refine ⟨fun l fd hmem => ((run_follows hrun).inRange l fd hmem).2, ?_⟩
    rintro before l fd after rfl fd' hreg
    by_contra hne
    exact not_watchesAll_of_removeFd hreg hne hall
  · rintro ⟨hroom, halone⟩ before hbefore
    have hin : InRange before := fun l fd hmem =>
      ⟨hcalls _ (hbefore.subset hmem), hroom l fd (hbefore.subset hmem)⟩
    obtain ⟨w, hrun⟩ := run_isSome hin
    refine ⟨w, hrun, ?_⟩
    have h := run_follows hrun
    rcases List.eq_nil_or_concat before with rfl | ⟨before, call, rfl⟩
    · cases hrun
      have hnew : (new : Watcher L).Holds 0 := ⟨rfl, rfl, le_rfl, by simp [new], .inl rfl⟩
      exact hnew.watches_iff.mpr (by simp [new])
    · rw [List.concat_eq_append] at hrun hbefore h
      obtain ⟨w₀, ⟨l, fd, rfl, -, hadded⟩ | ⟨l, fd, rfl, hremoved⟩⟩ := run_snoc_cases hrun
      · exact hadded.watches
      · refine (hremoved.watches_iff fun fd' hmem => (h.fd_inRange fd' hmem).1).mpr ?_
        rw [Finset.eq_empty_iff_forall_notMem]
        intro fd' hmem
        obtain ⟨hne, hreg⟩ := registered_removeFd.mp ((h.fd fd').mp hmem)
        obtain ⟨after, hafter⟩ := hbefore
        exact hne (halone before l fd after (by rw [← hafter]; simp) fd' hreg)

theorem watches_all_one :
    WatchesAll [.addFd 'a' 3, .removeFd 'a' 3] ↔
      (∀ l fd, .addFd l fd ∈ [Call.addFd 'a' 3, .removeFd 'a' 3] → fd < fdSetSize) ∧
        ∀ before l fd after, [.addFd 'a' 3, .removeFd 'a' 3] = before ++ .removeFd l fd :: after →
          ∀ fd', Registered before fd' → fd' = fd :=
  watches_all_iff _ (by decide)

/-- When the lower of two descriptors is removed, the other is not watched any more. -/
theorem not_watches_two : ¬ WatchesAll [.addFd 'a' 3, .addFd 'b' 4, .removeFd 'a' 3] := by
  have hreg : Registered [.addFd 'a' 3, .addFd 'b' 4] 4 := ⟨[.addFd 'a' 3], 'b', [], rfl, by simp⟩
  show ¬ WatchesAll ([.addFd 'a' 3, .addFd 'b' 4] ++ .removeFd 'a' 3 :: [])
  exact not_watchesAll_of_removeFd hreg (by decide)

end Watcher

end ZenohProxy
