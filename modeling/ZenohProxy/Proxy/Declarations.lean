import ZenohProxy.Lib.Ledger
import ZenohProxy.Proxy.Handlers
import ZenohProxy.Proxy.Registrations

/-!
# Declarations and tables

What zenoh has been told is a ledger: a declaration acquires a handle, an undeclaration
releases it. `Declared` says that the handles held are those in the tables, and that none was
released that was not held. `unSubscribe` apart, every call of the broker keeps it, so it
holds after any frames (`live_declarations_match`).
-/

namespace ZenohProxy

variable {κ : Type}

/-! ## The two ledgers -/

def ZnCall.subEntry : ZnCall κ → Option (Ledger.Entry Nat)
  | .declareSubscriber _ _ _ _ (some h) => some (.acquire h)
  | .undeclareSubscriber (some h) => some (.release h)
  | _ => none

def ZnCall.pubEntry : ZnCall κ → Option (Ledger.Entry Nat)
  | .declarePublisher _ _ (some h) => some (.acquire h)
  | .undeclarePublisher (some h) => some (.release h)
  | _ => none

/-- Declarations and undeclarations of subscribers, in order. -/
def subLedger (calls : List (ZnCall κ)) : List (Ledger.Entry Nat) := calls.filterMap ZnCall.subEntry

def pubLedger (calls : List (ZnCall κ)) : List (Ledger.Entry Nat) := calls.filterMap ZnCall.pubEntry

/-- The subscribers declared and not yet undeclared. -/
def liveSubscribers (calls : List (ZnCall κ)) : Multiset Nat := Ledger.held (subLedger calls)

def livePublishers (calls : List (ZnCall κ)) : Multiset Nat := Ledger.held (pubLedger calls)

theorem subLedger_append (calls calls' : List (ZnCall κ)) :
    subLedger (calls ++ calls') = subLedger calls ++ subLedger calls' := List.filterMap_append

theorem pubLedger_append (calls calls' : List (ZnCall κ)) :
    pubLedger (calls ++ calls') = pubLedger calls ++ pubLedger calls' := List.filterMap_append

/-- Undeclarations release the handles that are not null. -/
theorem subLedger_undeclare (hs : List Handle) :
    subLedger (hs.map (.undeclareSubscriber : Handle → ZnCall κ))
      = (hs.filterMap id).map .release := by
  induction hs with
  | nil => rfl
  | cons h hs ih =>
    cases h with
    | none => exact ih
    | some h => exact congrArg (Ledger.Entry.release h :: ·) ih

theorem pubLedger_undeclare (hs : List Handle) :
    pubLedger (hs.map (.undeclarePublisher : Handle → ZnCall κ))
      = (hs.filterMap id).map .release := by
  induction hs with
  | nil => rfl
  | cons h hs ih =>
    cases h with
    | none => exact ih
    | some h => exact congrArg (Ledger.Entry.release h :: ·) ih

/-- The two ledgers have no calls in common. -/
theorem subLedger_undeclarePublisher (hs : List Handle) :
    subLedger (hs.map (.undeclarePublisher : Handle → ZnCall κ)) = [] := by
  rw [subLedger, List.filterMap_map]
  exact List.filterMap_eq_nil_iff.mpr fun _ _ => rfl

theorem pubLedger_undeclareSubscriber (hs : List Handle) :
    pubLedger (hs.map (.undeclareSubscriber : Handle → ZnCall κ)) = [] := by
  rw [pubLedger, List.filterMap_map]
  exact List.filterMap_eq_nil_iff.mpr fun _ _ => rfl

namespace BrokerZenoh

/-- The handles in the table of the subscriptions. -/
def subHandles (b : BrokerZenoh κ) : List Handle :=
  b.subscribers.entries.map fun e => e.2.znSubscriber

def pubHandles (b : BrokerZenoh κ) : List Handle :=
  b.publishers.entries.map fun e => e.2.znPublisher

/-- Zenoh holds what the tables hold, and takes back only what it holds. -/
structure Declared (b : BrokerZenoh κ) : Prop where
  subscribers : liveSubscribers b.calls = (b.subHandles.filterMap id : List Nat)
  publishers : livePublishers b.calls = (b.pubHandles.filterMap id : List Nat)
  subsClean : Ledger.Clean (subLedger b.calls)
  pubsClean : Ledger.Clean (pubLedger b.calls)

theorem declared_new : (new : BrokerZenoh κ).Declared :=
  ⟨rfl, rfl, Ledger.clean_nil, Ledger.clean_nil⟩

section

variable {z : Zenoh κ} {b b' : BrokerZenoh κ}

/-- Calls that declare what is entered into the tables, and undeclare nothing. -/
theorem Declared.declares (h : b.Declared) (subs pubs : List Nat) {new : List (ZnCall κ)}
    (hcalls : b'.calls = b.calls ++ new) (hsub : subLedger new = subs.map .acquire)
    (hpub : pubLedger new = pubs.map .acquire)
    (hsubs : b'.subHandles.filterMap id = subs ++ b.subHandles.filterMap id)
    (hpubs : b'.pubHandles.filterMap id = pubs ++ b.pubHandles.filterMap id) : b'.Declared := by
  have hsubLedger : subLedger b'.calls = subLedger b.calls ++ subs.map .acquire := by
    rw [hcalls, subLedger_append, hsub]
  have hpubLedger : pubLedger b'.calls = pubLedger b.calls ++ pubs.map .acquire := by
    rw [hcalls, pubLedger_append, hpub]
  refine ⟨?_, ?_, ?_, ?_⟩
  · rw [liveSubscribers, hsubLedger, Ledger.held_acquires, hsubs, ← Multiset.coe_add,
      ← h.subscribers, liveSubscribers]
  · rw [livePublishers, hpubLedger, Ledger.held_acquires, hpubs, ← Multiset.coe_add,
      ← h.publishers, livePublishers]
  · rw [hsubLedger]
    exact h.subsClean.acquires subs
  · rw [hpubLedger]
    exact h.pubsClean.acquires pubs

theorem Declared.other (h : b.Declared) {new : List (ZnCall κ)}
    (hsubs : b'.subscribers = b.subscribers) (hpubs : b'.publishers = b.publishers)
    (hcalls : b'.calls = b.calls ++ new) (hsub : subLedger new = []) (hpub : pubLedger new = []) :
    b'.Declared :=
  h.declares [] [] hcalls hsub hpub (by rw [subHandles, hsubs]; rfl)
    (by rw [pubHandles, hpubs]; rfl)

theorem disconnect_calls (b : BrokerZenoh κ) : b.disconnect.1.calls
    = b.calls ++
      (b.subHandles.map .undeclareSubscriber ++ b.pubHandles.map .undeclarePublisher) := by
  simp only [disconnect, subHandles, pubHandles, List.map_map, List.append_assoc]
  rfl

theorem Declared.disconnect (h : b.Declared) : b.disconnect.1.Declared := by
  have hsub : subLedger b.disconnect.1.calls
      = subLedger b.calls ++ (b.subHandles.filterMap id).map .release := by
    rw [disconnect_calls, subLedger_append, subLedger_append, subLedger_undeclare,
      subLedger_undeclarePublisher, List.append_nil]
  have hpub : pubLedger b.disconnect.1.calls
      = pubLedger b.calls ++ (b.pubHandles.filterMap id).map .release := by
    rw [disconnect_calls, pubLedger_append, pubLedger_append, pubLedger_undeclare,
      pubLedger_undeclareSubscriber, List.nil_append]
  refine ⟨?_, ?_, ?_, ?_⟩
  · rw [liveSubscribers, hsub]
    exact Ledger.held_releases_all h.subscribers
  · rw [livePublishers, hpub]
    exact Ledger.held_releases_all h.publishers
  · rw [hsub]
    exact h.subsClean.releases h.subscribers.ge
  · rw [hpub]
    exact h.pubsClean.releases h.publishers.ge

/-- **One step keeps the tables and zenoh together**, unless it is an `unSubscribe` of an
identifier in the table. -/
theorem Declared.step (h : b.Declared) (op : BrokerOp κ)
    (hop : ∀ id, op = .unSubscribe id → b.subscribers.lookup id = none) :
    (b.step z op).1.Declared := by
  have heffect := step_effect (z := z) (b := b) op
  generalize b.step z op = r at heffect ⊢
  cases heffect with
  | connected | subscribed | notSubscribed | published | unknown => exact h
  | opened | subscriberRefused | written => exact h.other rfl rfl rfl rfl rfl
  | disconnected => exact h.disconnect
  | subscriberDeclared id pattern callback sub hid =>
    refine h.declares [sub] [] rfl rfl rfl ?_ rfl
    rw [subHandles, AList.entries_insert_of_notMem (AList.lookup_eq_none.mp hid)]
    rfl
  | unSubscribed id sub hid =>
    rw [hop id rfl] at hid
    cases hid
  | publisherEntered id key rid pub hid =>
    -- a publisher that zenoh did not declare is in the table with the null pointer
    cases pub with
    | none =>
      refine h.declares [] [] rfl rfl rfl rfl ?_
      rw [pubHandles, AList.entries_insert_of_notMem (AList.lookup_eq_none.mp hid)]
      rfl
    | some pub =>
      refine h.declares [] [pub] rfl rfl rfl rfl ?_
      rw [pubHandles, AList.entries_insert_of_notMem (AList.lookup_eq_none.mp hid)]
      rfl

theorem Declared.run (h : b.Declared) (ops : List (BrokerOp κ))
    (hops : ∀ before id after, ops = before ++ .unSubscribe id :: after →
      (b.run z before).subscribers.lookup id = none) : (b.run z ops).Declared := by
  induction ops generalizing b with
  | nil => exact h
  | cons op ops ih =>
    refine ih (h.step op fun id hop => hops [] id ops (by rw [hop]; rfl)) ?_
    intro before id after hsplit
    exact hops (op :: before) id after (by rw [hsplit]; rfl)

end

/-! ## Free identifiers

An identifier that is in no table stays so until it is registered, and only by a registration
in the table that it is free in.
-/

/-- The identifier is not registered. -/
def Free (b : BrokerZenoh κ) : Slot → Prop
  | .subscriber id => b.subscribers.lookup id = none
  | .publisher id => b.publishers.lookup id = none

section

variable {z : Zenoh κ} {b : BrokerZenoh κ} {slot : Slot}

theorem Free.step (h : b.Free slot) (op : BrokerOp κ) (hop : op.slot ≠ some slot) :
    (b.step z op).1.Free slot := by
  have heffect := step_effect (z := z) (b := b) op
  generalize b.step z op = r at heffect ⊢
  cases heffect with
  | disconnected => cases slot <;> rfl
  | subscriberDeclared id pattern callback sub hid =>
    cases slot with
    | publisher id' => exact h
    | subscriber id' =>
      have hne : id' ≠ id := by
        rintro rfl
        exact hop rfl
      exact (AList.lookup_insert_ne hne).trans h
  | publisherEntered id key rid pub hid =>
    cases slot with
    | subscriber id' => exact h
    | publisher id' =>
      have hne : id' ≠ id := by
        rintro rfl
        exact hop rfl
      exact (AList.lookup_insert_ne hne).trans h
  | _ => exact h

theorem Free.run (h : b.Free slot) {ops : List (BrokerOp κ)}
    (hops : ∀ op ∈ ops, op.slot ≠ some slot) : (b.run z ops).Free slot := by
  induction ops generalizing b with
  | nil => exact h
  | cons op ops ih =>
    rw [List.forall_mem_cons] at hops
    exact ih (h.step op hops.1) hops.2

end

/-! ## One to one -/

/-- The handles in the tables are those that zenoh holds, each as often. -/
structure Matched (b : BrokerZenoh κ) : Prop where
  subscribers : (liveSubscribers b.calls).map some = (b.subHandles : Multiset Handle)
  publishers : (livePublishers b.calls).map some = (b.pubHandles : Multiset Handle)
  subsClean : Ledger.Clean (subLedger b.calls)
  pubsClean : Ledger.Clean (pubLedger b.calls)

theorem map_some_filterMap_id {α : Type} {l : List (Option α)} (hl : none ∉ l) :
    (l.filterMap id).map some = l := by
  induction l with
  | nil => rfl
  | cons a l ih =>
    rw [List.mem_cons, not_or] at hl
    obtain ⟨x, rfl⟩ := Option.ne_none_iff_exists'.mp (Ne.symm hl.1)
    exact congrArg (some x :: ·) (ih hl.2)

theorem Declared.matched {b : BrokerZenoh κ} (h : b.Declared) (hsubs : none ∉ b.subHandles)
    (hpubs : none ∉ b.pubHandles) : b.Matched where
  subscribers := by rw [h.subscribers, Multiset.map_coe, map_some_filterMap_id hsubs]
  publishers := by rw [h.publishers, Multiset.map_coe, map_some_filterMap_id hpubs]
  subsClean := h.subsClean
  pubsClean := h.pubsClean

end BrokerZenoh

/-- Declarations succeed. -/
structure Zenoh.Declares (z : Zenoh κ) : Prop where
  declareSubscriber : ∀ calls session key, z.declareSubscriber calls session key ≠ none
  declarePublisher : ∀ calls session key, z.declarePublisher calls session key ≠ none

namespace BrokerZenoh

section

variable {z : Zenoh κ} {b : BrokerZenoh κ}

/-- A subscription without a handle is not entered, whatever zenoh answers. -/
theorem subHandles_step (h : none ∉ b.subHandles) (op : BrokerOp κ) :
    none ∉ (b.step z op).1.subHandles := by
  have heffect := step_effect (z := z) (b := b) op
  generalize b.step z op = r at heffect ⊢
  cases heffect with
  | disconnected => exact List.not_mem_nil
  | subscriberDeclared id pattern callback sub hid =>
    rw [subHandles, AList.entries_insert_of_notMem (AList.lookup_eq_none.mp hid),
      List.map_cons, List.mem_cons, not_or]
    exact ⟨nofun, h⟩
  | _ => exact h

/-- What zenoh answers if a publisher is declared for a key. -/
def publisherAnswer (z : Zenoh κ) (b : BrokerZenoh κ) (key : Str) : Handle :=
  let (b, reskey) := b.resource z key
  z.declarePublisher b.calls b.session reskey

/-- A publisher without a handle is entered only if zenoh refuses it. -/
theorem pubHandles_step (h : none ∉ b.pubHandles) (op : BrokerOp κ)
    (hop : ∀ id key, op = .publisher id key → b.publishers.lookup id = none →
      b.publisherAnswer z key ≠ none) : none ∉ (b.step z op).1.pubHandles := by
  have heffect := step_effect (z := z) (b := b) op
  generalize b.step z op = r at heffect ⊢
  cases heffect with
  | disconnected => exact List.not_mem_nil
  | publisherEntered id key rid pub hid hrid hpub =>
    have hanswer : pub = b.publisherAnswer z key := by rw [hpub, hrid]; rfl
    rw [pubHandles, AList.entries_insert_of_notMem (AList.lookup_eq_none.mp hid),
      List.map_cons, List.mem_cons, not_or]
    exact ⟨Ne.symm (hanswer ▸ hop id key rfl hid), h⟩
  | _ => exact h

/-- **The tables and zenoh match** after any calls but `unSubscribe`. -/
theorem matched_run (hz : z.Declares) (ops : List (BrokerOp κ))
    (hops : ∀ id, .unSubscribe id ∉ ops) : ((new : BrokerZenoh κ).run z ops).Matched := by
  have hdeclared : ((new : BrokerZenoh κ).run z ops).Declared := by
    refine declared_new.run ops fun before id after hsplit => ?_
    exact absurd (hsplit ▸ List.mem_append_right _ List.mem_cons_self) (hops id)
  have hnonnull : none ∉ (new.run z ops).subHandles ∧ none ∉ (new.run z ops).pubHandles := by
    clear hops hdeclared
    induction ops using List.reverseRecOn with
    | nil => exact ⟨List.not_mem_nil, List.not_mem_nil⟩
    | append_singleton ops op ih =>
      rw [run_append]
      exact ⟨subHandles_step ih.1 op,
        pubHandles_step ih.2 op fun _ _ _ _ => hz.declarePublisher _ _ _⟩
  exact hdeclared.matched hnonnull.1 hnonnull.2

theorem publishers_run {id : Int} (hid : b.publishers.lookup id = none) {ops : List (BrokerOp κ)}
    (hops : ∀ key, .publisher id key ∉ ops) : (b.run z ops).publishers.lookup id = none := by
  have hfree : b.Free (.publisher id) := hid
  refine hfree.run fun op hop hslot => ?_
  cases op with
  | publisher id' key =>
    cases hslot
    exact hops key hop
  | _ => cases hslot

end

end BrokerZenoh

/-! ## Any frames -/

open BrokerZenoh

/-- **Live declarations match the tables.** With a zenoh that declares what it is asked to,
after each call that the handlers make for any frames: the handles in the tables are those
declared and not yet undeclared, and no handle was undeclared that was not live. A
`disconnect` undeclares each live handle once and empties the tables; from then on a value
published under an identifier that has not been registered again is not written. -/
theorem live_declarations_match {T : TinyCbor} (p : Proxy T) {z : Zenoh Unit} (hz : z.Declares)
    (frames : List Bytes) :
    (∀ seen, seen <+: brokerOps (p.onFrames frames).2 → (new.run z seen).Matched) ∧
    ∀ before after, brokerOps (p.onFrames frames).2 = before ++ .disconnect :: after →
      let b := new.run z before
      let b' := new.run z (before ++ [.disconnect])
      (∃ subs pubs : List Handle, b'.calls
          = b.calls ++ (subs.map .undeclareSubscriber ++ pubs.map .undeclarePublisher) ∧
        (subs : Multiset Handle) = (liveSubscribers b.calls).map some ∧
        (pubs : Multiset Handle) = (livePublishers b.calls).map some) ∧
      b'.subscribers = ∅ ∧ b'.publishers = ∅ ∧
      ∀ seen, seen <+: after → ∀ id, (∀ key, .publisher id key ∉ seen) → ∀ bs,
        (b'.run z seen).publish z id bs = (b'.run z seen, enoent) := by
  have hun : ∀ seen, seen <+: brokerOps (p.onFrames frames).2 →
      ∀ id, .unSubscribe id ∉ seen := fun seen hseen id hmem =>
    Proxy.unSubscribe_notMem_onFrames p frames id (hseen.subset hmem)
  refine ⟨fun seen hseen => matched_run hz seen (hun seen hseen), ?_⟩
  intro before after hsplit b b'
  have hmatched : b.Matched :=
    matched_run hz before (hun before ⟨.disconnect :: after, hsplit.symm⟩)
  have hb' : b' = b.disconnect.1 := run_append ..
  refine ⟨⟨b.subHandles, b.pubHandles, ?_, hmatched.subscribers.symm,
    hmatched.publishers.symm⟩, ?_, ?_, ?_⟩
  · rw [hb', disconnect_calls]
  · rw [hb']
    rfl
  · rw [hb']
    rfl
  · intro seen _ id hid bs
    have hnone : (b'.run z seen).publishers.lookup id = none :=
      publishers_run (by rw [hb']; rfl) hid
    rcases publish_spec (z := z) (b := b'.run z seen) id bs with ⟨-, heq⟩ | ⟨pub, hpub, -⟩
    · exact heq
    · rw [hnone] at hpub
      cases hpub

/-- A client registers the publisher 2, the subscriber 1 twice, disconnects and publishes. -/
theorem live_declarations_match_session :
    let p := Proxy.start lenient
    let z : Zenoh Unit := Zenoh.succeeding
    let frames := [Cbor.encodeArray (MsgConnect.elements ⟨str "c"⟩),
      Cbor.encodeArray (MsgPublisher.elements ⟨2, str "b"⟩),
      Cbor.encodeArray (MsgSubscriber.elements ⟨1, str "a"⟩),
      Cbor.encodeArray (MsgSubscriber.elements ⟨1, str "z"⟩),
      Cbor.encodeArray (MsgDisconnect.elements ⟨⟩),
      Cbor.encodeArray (MsgPublish.elements ⟨2, [7]⟩)]
    (∀ seen, seen <+: brokerOps (p.onFrames frames).2 → (new.run z seen).Matched) ∧
    ∀ before after, brokerOps (p.onFrames frames).2 = before ++ .disconnect :: after →
      let b := new.run z before
      let b' := new.run z (before ++ [.disconnect])
      (∃ subs pubs : List Handle, b'.calls
          = b.calls ++ (subs.map .undeclareSubscriber ++ pubs.map .undeclarePublisher) ∧
        (subs : Multiset Handle) = (liveSubscribers b.calls).map some ∧
        (pubs : Multiset Handle) = (livePublishers b.calls).map some) ∧
      b'.subscribers = ∅ ∧ b'.publishers = ∅ ∧
      ∀ seen, seen <+: after → ∀ id, (∀ key, .publisher id key ∉ seen) → ∀ bs,
        (b'.run z seen).publish z id bs = (b'.run z seen, enoent) :=
  live_declarations_match (Proxy.start lenient) ⟨by simp [Zenoh.succeeding],
    by simp [Zenoh.succeeding]⟩ _

/-! ## Unsubscribing -/

namespace BrokerZenoh

/-- `unSubscribe` undoes `subscriber` over a run: a handle is undeclared at most as often as
zenoh handed it out, and only when it is live, and after `unSubscribe` the next registration
of the identifier is declared. -/
structure Inverse (z : Zenoh κ) (ops : List (BrokerOp κ)) : Prop where
  atMostOnce : ∀ h, (subLedger (new.run z ops).calls).count (.release h)
    ≤ (subLedger (new.run z ops).calls).count (.acquire h)
  onlyLive : Ledger.Clean (subLedger (new.run z ops).calls)
  frees : ∀ before id mid after, ops = before ++ .unSubscribe id :: (mid ++ after) →
    (∀ pattern callback, .subscriber id pattern callback ∉ mid) → ∀ pattern callback,
      let b := new.run z (before ++ .unSubscribe id :: mid)
      ∃ sub, (b.subscriber z id pattern callback).1.calls = b.calls ++
        [.declareSubscriber b.session (.rname (cStr pattern)) id callback (some sub)]

section

variable {z : Zenoh κ} {b : BrokerZenoh κ}

theorem unSubscribe_subscribers (id : Int) :
    (b.unSubscribe id).1.subscribers = b.subscribers := by
  rw [unSubscribe]
  split <;> rfl

theorem subscribers_run {id : Int} (hid : b.subscribers.lookup id = none)
    {ops : List (BrokerOp κ)} (hops : ∀ pattern callback, .subscriber id pattern callback ∉ ops) :
    (b.run z ops).subscribers.lookup id = none := by
  have hfree : b.Free (.subscriber id) := hid
  refine hfree.run fun op hop hslot => ?_
  cases op with
  | subscriber id' pattern callback =>
    cases hslot
    exact hops pattern callback hop
  | _ => cases hslot

/-- A subscription of an identifier in the table makes no call. -/
theorem subscriber_entered {id : Int} (hid : b.subscribers.lookup id ≠ none) (pattern : Str)
    (callback : κ) : b.subscriber z id pattern callback = (b, 0) := by
  rcases subscriber_spec (z := z) (b := b) id pattern callback with ⟨-, heq⟩ | ⟨hnone, -⟩
  · exact heq
  · exact absurd hnone hid

/-- **When `unSubscribe` is the inverse of `subscriber`.** With a zenoh that declares
subscriptions, for any calls: exactly when every `unSubscribe` is for an identifier that is
not subscribed, so that it does nothing. -/
theorem unSubscribe_inverse_iff (z : Zenoh κ)
    (hz : ∀ calls session key, z.declareSubscriber calls session key ≠ none)
    (ops : List (BrokerOp κ)) :
    Inverse z ops ↔ ∀ before id after, ops = before ++ .unSubscribe id :: after →
      inForce (subscriberOf id) before = none := by
  have hforce (before : List (BrokerOp κ)) (id : Int) :
      inForce (subscriberOf id) before = none ↔
        (new.run z before).subscribers.lookup id = none := by
    rw [← subscribers_inForce hz, Option.map_eq_none_iff]
  constructor
  · intro h before id after hsplit
    rw [hforce]
    by_contra hid
    obtain ⟨sub, hsub⟩ := Option.ne_none_iff_exists'.mp hid
    -- the entry outlives the `unSubscribe`, so the next registration declares nothing
    have hstill : (new.run z (before ++ [.unSubscribe id])).subscribers.lookup id ≠ none := by
      rw [run_append, run_cons, run_nil, step, unSubscribe_subscribers]
      exact hid
    obtain ⟨sub', hcalls⟩ := h.frees before id [] after hsplit (by simp) [] sub.callback
    rw [subscriber_entered hstill, List.self_eq_append_right] at hcalls
    cases hcalls
  · intro h
    have hlookup : ∀ before id after, ops = before ++ .unSubscribe id :: after →
        (new.run z before).subscribers.lookup id = none := fun before id after hsplit =>
      (hforce before id).mp (h before id after hsplit)
    have hclean := (declared_new.run ops hlookup).subsClean
    refine ⟨fun sub => by rw [hclean.count]; omega, hclean, ?_⟩
    intro before id mid after hsplit hmid pattern callback b
    have hfree : (new.run z before).subscribers.lookup id = none :=
      hlookup before id (mid ++ after) hsplit
    have hnone : b.subscribers.lookup id = none := by
      have hrun : b = (new.run z before).run z (.unSubscribe id :: mid) := run_append ..
      rw [hrun]
      exact subscribers_run hfree (by simpa using hmid)
    rcases subscriber_spec (z := z) (b := b) id pattern callback with
      ⟨hid, -⟩ | ⟨-, zsub, hzsub, heq⟩
    · exact absurd hnone hid
    · obtain ⟨sub, rfl⟩ := Option.ne_none_iff_exists'.mp (hzsub ▸ hz _ _ _ : zsub ≠ none)
      exact ⟨sub, by rw [heq, if_neg (Option.some_ne_none sub)]; rfl⟩

end

/-- Subscribe, unsubscribe, and the client goes away: the subscription is undeclared twice.
Instead of going away it could not subscribe to 1 again. -/
theorem unSubscribe_twice :
    ¬ Inverse (Zenoh.succeeding : Zenoh Unit) [.connect (str "c"), .subscriber 1 (str "a") (),
      .unSubscribe 1, .disconnect] := by
  intro h
  have hcount := h.atMostOnce 1
  revert hcount
  decide

/-- The run without the `unSubscribe` of a subscribed identifier. -/
theorem unSubscribe_inverse_iff_free :
    Inverse (Zenoh.succeeding : Zenoh Unit)
        [.connect (str "c"), .subscriber 1 (str "a") (), .unSubscribe 2] ↔
      ∀ before id after, ([.connect (str "c"), .subscriber 1 (str "a") (), .unSubscribe 2] :
          List (BrokerOp Unit)) = before ++ .unSubscribe id :: after →
        inForce (subscriberOf id) before = none :=
  unSubscribe_inverse_iff Zenoh.succeeding (by simp [Zenoh.succeeding]) _

end BrokerZenoh

end ZenohProxy
