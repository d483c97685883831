import ZenohProxy.Lib.Ledger
import ZenohProxy.Lib.Simulation
import ZenohProxy.Proxy.BrokerZenoh

/-!
# The zenoh session of `src-pico`

`zenoh::Session` is the other front of zenoh: it opens one session, keeps a table of its
subscriptions by topic, and writes to topics without declaring them. The calls of zenoh are
kept in the state of the model, in order and with their answers, of which nothing is known.

`subscriptions_exact`: a topic is in the table exactly if it was subscribed to with success and
the session not closed since, and what zenoh holds is what the table holds. A subscription that
zenoh refuses leaves nothing behind, unlike a publisher of `BrokerZenoh`.
-/

namespace ZenohProxy

open Labelled

structure ZenohMessage where
  key : Str
  data : Bytes
  deriving DecidableEq, Repr

/-- A call of zenoh and its answer. All resources are given by name. -/
inductive SessionCall where
  | open_ (session : Handle)
  | declareSubscriber (session : Handle) (name : Str) (sub : Handle)
  | undeclareSubscriber (sub : Nat)
  | write (session : Handle) (name : Str) (data : Bytes) (rc : Int)
  | declareResource (session : Handle) (name : Str) (rid : Nat)
  | queryCollect (session : Handle) (name : Str) (replies : List ZenohMessage)
  deriving DecidableEq, Repr

/-- The answers of zenoh, given the calls before. -/
structure ZenohNet where
  open_ : List SessionCall → Handle
  declareSubscriber : List SessionCall → Handle → Str → Handle
  write : List SessionCall → Handle → Str → Bytes → Int
  declareResource : List SessionCall → Handle → Str → Nat
  queryCollect : List SessionCall → Handle → Str → List ZenohMessage

/-- Only what zenoh has declared is in the table, so its entries are no null pointers. -/
structure ZenohSession where
  session : Handle
  subscribers : AList fun _ : Str => Nat
  /-- The calls made so far. -/
  calls : List SessionCall

/-- A call of one of the functions. -/
inductive SessionOp where
  | open_
  | close
  | subscribe (resource : Str)
  | publish (topic : Str) (bs : Bytes)
  | resource (topic : Str)
  | query (uri : Str)
  deriving DecidableEq, Repr

namespace ZenohSession

/-- The constructor. -/
def new : ZenohSession := ⟨none, ∅, []⟩

def call (s : ZenohSession) (c : SessionCall) : ZenohSession := { s with calls := s.calls ++ [c] }

def open_ (z : ZenohNet) (s : ZenohSession) : ZenohSession × Int :=
  let s : ZenohSession :=
    if s.session = none then
      let session := z.open_ s.calls
      { s.call (.open_ session) with session }
    else s
  (s, if s.session = none then -1 else 0)

/-- The session itself stays open. -/
def close (s : ZenohSession) : ZenohSession :=
  { s with
    subscribers := ∅
    calls := s.calls ++ s.subscribers.entries.map fun e => .undeclareSubscriber e.2 }

def subscribe (z : ZenohNet) (s : ZenohSession) (resource : Str) : ZenohSession × Int :=
  match s.subscribers.lookup resource with
  | some _ => (s, 0)
  | none =>
    let name := cStr resource
    let sub := z.declareSubscriber s.calls s.session name
    let s := s.call (.declareSubscriber s.session name sub)
    match sub with
    | none => (s, -1)
    | some sub => ({ s with subscribers := s.subscribers.insert resource sub }, 0)

def publish (z : ZenohNet) (s : ZenohSession) (topic : Str) (bs : Bytes) : ZenohSession × Int :=
  let name := cStr topic
  let rc := z.write s.calls s.session name bs
  (s.call (.write s.session name bs rc), rc)

def resource (z : ZenohNet) (s : ZenohSession) (topic : Str) : ZenohSession × Nat :=
  let name := cStr topic
  let rid := z.declareResource s.calls s.session name
  (s.call (.declareResource s.session name rid), rid)

def query (z : ZenohNet) (s : ZenohSession) (uri : Str) : ZenohSession × List ZenohMessage :=
  let name := cStr uri
  let replies := z.queryCollect s.calls s.session name
  (s.call (.queryCollect s.session name replies), replies)

def step (z : ZenohNet) (s : ZenohSession) : SessionOp → ZenohSession
  | .open_ => (s.open_ z).1
  | .close => s.close
  | .subscribe resource => (s.subscribe z resource).1
  | .publish topic bs => (s.publish z topic bs).1
  | .resource topic => (s.resource z topic).1
  | .query uri => (s.query z uri).1

def run (z : ZenohNet) (ops : List SessionOp) : ZenohSession := ops.foldl (step z) new

theorem run_snoc (z : ZenohNet) (ops : List SessionOp) (op : SessionOp) :
    run z (ops ++ [op]) = (run z ops).step z op := by
  rw [run, List.foldl_append]
  rfl

end ZenohSession

/-! ## What zenoh is told -/

def SessionCall.entry : SessionCall → Option (Ledger.Entry Nat)
  | .declareSubscriber _ _ (some sub) => some (.acquire sub)
  | .undeclareSubscriber sub => some (.release sub)
  | _ => none

/-- Declarations and undeclarations, in order. -/
def sessionLedger (calls : List SessionCall) : List (Ledger.Entry Nat) :=
  calls.filterMap SessionCall.entry

/-- The session that `zn_open` has given last. -/
def openedSession (calls : List SessionCall) : Handle :=
  calls.foldl (fun session c => match c with | .open_ session => session | _ => session) none

/-- The session a call is made on. -/
def SessionCall.session? : SessionCall → Option Handle
  | .open_ _ | .undeclareSubscriber _ => none
  | .declareSubscriber session _ _ | .write session _ _ _ | .declareResource session _ _
  | .queryCollect session _ _ => some session

/-- After the calls before, a call is right if it is made on the session there is, or opens one
where there is none. -/
def OnSession (before : List SessionCall) (c : SessionCall) : Prop :=
  (∀ session, c.session? = some session → session = openedSession before) ∧
    ∀ session, c = .open_ session → openedSession before = none

namespace ZenohSession

def handles (s : ZenohSession) : List Nat := s.subscribers.entries.map fun e => e.2

/-- Zenoh holds the subscriptions in the table and takes back only what it holds, and the calls
are made on the one session. -/
structure Exact (s : ZenohSession) : Prop where
  live : Ledger.held (sessionLedger s.calls) = (s.handles : Multiset Nat)
  clean : Ledger.Clean (sessionLedger s.calls)
  session : openedSession s.calls = s.session
  onSession : AtEach OnSession s.calls

theorem exact_new : new.Exact := ⟨rfl, Ledger.clean_nil, rfl, atEach_nil⟩

section

variable {z : ZenohNet} {s : ZenohSession}

/-- A call on the session there is. -/
theorem onSession_of (h : s.Exact) {c : SessionCall} (hc : c.session? = some s.session) :
    OnSession s.calls c := by
  constructor
  · intro session hsession
    rw [h.session]
    exact Option.some.inj (hsession.symm.trans hc)
  · rintro session rfl
    cases hc

theorem openedSession_snoc {c : SessionCall} (h : s.Exact) (hc : ∀ session, c ≠ .open_ session) :
    openedSession (s.calls ++ [c]) = s.session := by
  rw [← h.session, openedSession, List.foldl_append]
  cases c <;> first | rfl | exact absurd rfl (hc _)

/-- A call that is no declaration. -/
theorem Exact.call (h : s.Exact) {c : SessionCall} (hentry : c.entry = none)
    (hc : c.session? = some s.session) : (s.call c).Exact := by
  have hledger : sessionLedger (s.calls ++ [c]) = sessionLedger s.calls := by
    simp [sessionLedger, hentry]
  refine ⟨hledger ▸ h.live, hledger ▸ h.clean, openedSession_snoc h ?_,
    atEach_append.mpr ⟨h.onSession, by simpa using onSession_of h hc⟩⟩
  rintro session rfl
  cases hc

theorem Exact.open_ (h : s.Exact) : (s.open_ z).1.Exact := by
  by_cases hnull : s.session = none
  · have hledger (session : Handle) :
        sessionLedger (s.calls ++ [.open_ session]) = sessionLedger s.calls := by
      simp [sessionLedger, SessionCall.entry]
    simp only [ZenohSession.open_, if_pos hnull]
    refine ⟨(hledger _).symm ▸ h.live, (hledger _).symm ▸ h.clean, ?_,
      atEach_append.mpr ⟨h.onSession, ?_⟩⟩
    · simp [openedSession, ZenohSession.call]
    · simpa [OnSession, SessionCall.session?] using h.session.trans hnull
  · simpa only [ZenohSession.open_, if_neg hnull] using h

theorem Exact.close (h : s.Exact) : s.close.Exact := by
  have hledger : sessionLedger s.close.calls
      = sessionLedger s.calls ++ s.handles.map .release := by
    simp only [ZenohSession.close, sessionLedger, List.filterMap_append, List.filterMap_map,
      handles, List.map_map]
    exact congrArg _ (List.filterMap_eq_map_iff_forall_eq_some.mpr fun _ _ => rfl)
  refine ⟨?_, ?_, ?_, atEach_append.mpr ⟨h.onSession, ?_⟩⟩
  · rw [hledger]
    exact Ledger.held_releases_all h.live
  · rw [hledger]
    exact h.clean.releases h.live.ge
  · rw [ZenohSession.close, ← h.session, openedSession, List.foldl_append, List.foldl_map]
    exact List.foldl_fixed _
  · intro before c after hsplit
    have hmem : c ∈ s.subscribers.entries.map fun e => SessionCall.undeclareSubscriber e.2 :=
      hsplit ▸ by simp
    obtain ⟨e, -, rfl⟩ := List.mem_map.mp hmem
    exact ⟨nofun, nofun⟩

theorem Exact.subscribe (h : s.Exact) (resource : Str) : (s.subscribe z resource).1.Exact := by
  unfold ZenohSession.subscribe
  cases hlookup : s.subscribers.lookup resource with
  | some sub => exact h
  | none =>
    cases hsub : z.declareSubscriber s.calls s.session (cStr resource) with
    | none =>
      simp only [hsub]
      exact h.call rfl rfl
    | some sub =>
      simp only [hsub]
      have hledger : sessionLedger (s.calls
          ++ [.declareSubscriber s.session (cStr resource) (some sub)])
          = sessionLedger s.calls ++ [.acquire sub] := List.filterMap_append
      refine ⟨?_, ?_, openedSession_snoc h nofun,
        atEach_append.mpr ⟨h.onSession, by simpa using onSession_of h rfl⟩⟩
      · rw [ZenohSession.call, hledger, Ledger.held_acquire, h.live, handles, handles,
          AList.entries_insert_of_notMem (AList.lookup_eq_none.mp hlookup)]
        rfl
      · rw [ZenohSession.call, hledger]
        exact h.clean.acquires [sub]

/-- **One call** of a function of the session. -/
theorem Exact.step (h : s.Exact) (op : SessionOp) : (s.step z op).Exact := by
  cases op with
  | open_ => exact h.open_
  | close => exact h.close
  | subscribe resource => exact h.subscribe resource
  | publish topic bs => exact h.call rfl rfl
  | resource topic => exact h.call rfl rfl
  | query uri => exact h.call rfl rfl

theorem exact_run (z : ZenohNet) (ops : List SessionOp) : (run z ops).Exact := by
  induction ops using List.reverseRecOn with
  | nil => exact exact_new
  | append_singleton ops op ih =>
    rw [run_snoc]
    exact ih.step op

end

/-! ## What is in the table -/

/-- The topic has been subscribed to, which returned 0, and the session has not been closed
since. -/
def Subscribed (z : ZenohNet) (ops : List SessionOp) (topic : Str) : Prop :=
  ∃ before after, ops = before ++ .subscribe topic :: after ∧ .close ∉ after ∧
    ((run z before).subscribe z topic).2 = 0

theorem subscribed_snoc {z : ZenohNet} {ops : List SessionOp} {op : SessionOp} {topic : Str} :
    Subscribed z (ops ++ [op]) topic ↔
      (op = .subscribe topic ∧ ((run z ops).subscribe z topic).2 = 0) ∨
        (op ≠ .close ∧ Subscribed z ops topic) := by
  constructor
  · rintro ⟨before, after, hsplit, hclose, hrc⟩
    rcases List.eq_nil_or_concat after with rfl | ⟨after', last, rfl⟩
    · obtain ⟨rfl, hlast⟩ := List.append_inj' hsplit rfl
      exact .inl ⟨List.singleton_inj.mp hlast, hrc⟩
    · rw [List.concat_eq_append, ← List.cons_append, ← List.append_assoc] at hsplit
      obtain ⟨rfl, hlast⟩ := List.append_inj' hsplit rfl
      obtain rfl := List.singleton_inj.mp hlast
      rw [List.concat_eq_append, List.mem_append, not_or, List.mem_singleton] at hclose
      exact .inr ⟨Ne.symm hclose.2, before, after', rfl, hclose.1, hrc⟩
  · rintro (⟨rfl, hrc⟩ | ⟨hop, before, after, rfl, hclose, hrc⟩)
    · exact ⟨ops, [], rfl, List.not_mem_nil, hrc⟩
    · exact ⟨before, after ++ [op], by simp, by simp [hclose, Ne.symm hop], hrc⟩

/-- Only a subscription that returns 0 makes a topic come into the table. -/
theorem mem_subscribe {z : ZenohNet} {s : ZenohSession} {resource topic : Str} :
    topic ∈ (s.subscribe z resource).1.subscribers ↔
      (resource = topic ∧ (s.subscribe z topic).2 = 0) ∨ topic ∈ s.subscribers := by
  by_cases hsame : resource = topic
  · subst hsame
    unfold ZenohSession.subscribe
    cases hlookup : s.subscribers.lookup resource with
    | some sub =>
      have hmem := AList.lookup_isSome.mp (Option.isSome_of_eq_some hlookup)
      simp [hmem]
    | none =>
      cases hsub : z.declareSubscriber s.calls s.session (cStr resource) <;> simp [hsub, call]
  · have hother : topic ∈ (s.subscribe z resource).1.subscribers ↔ topic ∈ s.subscribers := by
      unfold ZenohSession.subscribe
      cases hlookup : s.subscribers.lookup resource with
      | some sub => rfl
      | none =>
        cases hsub : z.declareSubscriber s.calls s.session (cStr resource) <;>
          simp [hsub, call, AList.mem_insert, Ne.symm hsame]
    simp [hother, hsame]

theorem subscribers_open (z : ZenohNet) (s : ZenohSession) :
    (s.open_ z).1.subscribers = s.subscribers := by
  by_cases hnull : s.session = none <;> simp [open_, hnull, call]

/-- **The table, and what zenoh holds.** After any calls of the functions, whatever zenoh has
answered, a topic is in the table if and only if it is subscribed; the subscriptions that zenoh
holds are those of the table; none was undeclared that it did not hold; zenoh has opened at most
one session, and every call was made on it, or with a null pointer as long as there was none. -/
theorem subscriptions_exact (z : ZenohNet) (ops : List SessionOp) :
    (∀ topic, topic ∈ (run z ops).subscribers ↔ Subscribed z ops topic) ∧ (run z ops).Exact := by
  refine ⟨fun topic => ?_, exact_run z ops⟩
  induction ops using List.reverseRecOn with
  | nil =>
    refine iff_of_false (AList.notMem_empty _) ?_
    rintro ⟨before, after, hsplit, -⟩
    simp at hsplit
  | append_singleton ops op ih =>
    rw [subscribed_snoc, run_snoc, ← ih]
    cases op with
    | subscribe resource =>
      refine mem_subscribe.trans (or_congr ⟨?_, ?_⟩ (by simp))
      · rintro ⟨rfl, hrc⟩
        exact ⟨rfl, hrc⟩
      · rintro ⟨hop, hrc⟩
        cases hop
        exact ⟨rfl, hrc⟩
    | close => simp [step, close]
    | open_ => simp [step, subscribers_open]
    | publish topic bs => simp [step, publish, call]
    | resource topic => simp [step, resource, call]
    | query uri => simp [step, query, call]

end ZenohSession

end ZenohProxy
