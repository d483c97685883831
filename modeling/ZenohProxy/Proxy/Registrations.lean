import Mathlib.Logic.Equiv.List
import ZenohProxy.Proxy.BrokerZenoh

/-!
# Registrations in force

Which topic an identifier stands for is a matter of the history: the first registration
since the last `disconnect` counts, later ones report success and change nothing
(`inForce`). `first_registration_in_force` says that the tables and zenoh agree with the
history, whatever the calls were.
-/

namespace ZenohProxy

variable {κ : Type}

/-- Zenoh's calls succeed, and the number of a resource stands for the name it was declared
with. -/
structure Zenoh.Succeeds (z : Zenoh κ) (nameOf : Nat → Str) : Prop where
  open_ : ∀ calls, z.open_ calls ≠ none
  declareResource : ∀ calls session name,
    nameOf (z.declareResource calls session (.rname name)) = name
  declareSubscriber : ∀ calls session key, z.declareSubscriber calls session key ≠ none
  declarePublisher : ∀ calls session key, z.declarePublisher calls session key ≠ none
  write : ∀ calls session key data, z.write calls session key data = 0

/-! ## The history of an identifier -/

/-- What the first registration since the last `disconnect` registers. -/
def inForce {α : Type} (registers : BrokerOp κ → Option α) (ops : List (BrokerOp κ)) :
    Option α :=
  ops.foldl (fun current op =>
    match op with
    | .disconnect => none
    | op => current <|> registers op) none

/-- A publisher's key. -/
def publisherOf (id : Int) : BrokerOp κ → Option Str
  | .publisher id' key => if id' = id then some key else none
  | _ => none

/-- A subscriber's pattern and callback. -/
def subscriberOf (id : Int) : BrokerOp κ → Option (Str × κ)
  | .subscriber id' pattern callback => if id' = id then some (pattern, callback) else none
  | _ => none

def BrokerOp.isDisconnect : BrokerOp κ → Bool
  | .disconnect => true
  | _ => false

def BrokerOp.isUnSubscribe : BrokerOp κ → Bool
  | .unSubscribe _ => true
  | _ => false

section

variable {α : Type} {registers : BrokerOp κ → Option α}

theorem inForce_disconnect (ops : List (BrokerOp κ)) :
    inForce registers (ops ++ [.disconnect]) = none := by
  simp [inForce]

theorem inForce_concat (ops : List (BrokerOp κ)) {op : BrokerOp κ}
    (hop : op.isDisconnect = false) :
    inForce registers (ops ++ [op]) = (inForce registers ops <|> registers op) := by
  cases op with
  | disconnect => cases hop
  | _ => simp [inForce]

/-- Without a `disconnect` a registration stays in force. -/
theorem inForce_append {ops ops' : List (BrokerOp κ)} {a : α}
    (ha : inForce registers ops = some a) (hops' : ∀ op ∈ ops', op.isDisconnect = false) :
    inForce registers (ops ++ ops') = some a := by
  induction ops' using List.reverseRecOn with
  | nil => rwa [List.append_nil]
  | append_singleton ops' op ih =>
    rw [← List.append_assoc, inForce_concat _ (hops' op (by simp)),
      ih fun op' h => hops' op' (by simp [h])]
    rfl

/-- Without any, what is in force is the first registration of all. -/
theorem inForce_eq_findSome {ops : List (BrokerOp κ)}
    (hops : ∀ op ∈ ops, op.isDisconnect = false) :
    inForce registers ops = ops.findSome? registers := by
  induction ops using List.reverseRecOn with
  | nil => rfl
  | append_singleton ops op ih =>
    rw [inForce_concat _ (hops op (by simp)), ih fun op' h => hops op' (by simp [h]),
      List.findSome?_append, List.findSome?_singleton]
    cases List.findSome? registers ops <;> rfl

/-- A registration is in force if none was before, and it does not replace the one that was. -/
theorem inForce_registered (ops : List (BrokerOp κ)) {op : BrokerOp κ} {a : α}
    (hop : op.isDisconnect = false) (ha : registers op = some a) {after : List (BrokerOp κ)}
    (hafter : ∀ op ∈ after, op.isDisconnect = false) :
    inForce registers (ops ++ [op] ++ after) = some ((inForce registers ops).getD a) := by
  apply inForce_append _ hafter
  rw [inForce_concat ops hop, ha]
  cases inForce registers ops <;> rfl

end

/-! ## Tables and calls agree with the history -/

namespace BrokerZenoh

/-- There is a subscription for a pattern that forwards under an identifier to a callback:
it was declared and has not been undeclared. -/
def Live (calls : List (ZnCall κ)) (pattern : Str) (id : Int) (callback : κ) : Prop :=
  ∃ h before session after,
    calls = before ++ .declareSubscriber session (.rname (cStr pattern)) id callback (some h)
      :: after ∧ .undeclareSubscriber (some h) ∉ after

theorem Live.append {calls new : List (ZnCall κ)} {pattern : Str} {id : Int} {callback : κ}
    (h : Live calls pattern id callback) (hnew : ∀ sub, .undeclareSubscriber sub ∉ new) :
    Live (calls ++ new) pattern id callback := by
  obtain ⟨sub, before, session, after, rfl, hafter⟩ := h
  refine ⟨sub, before, session, after ++ new, by simp, ?_⟩
  rw [List.mem_append, not_or]
  exact ⟨hafter, hnew _⟩

section

variable {z : Zenoh κ} {b : BrokerZenoh κ}

theorem publishers_step (op : BrokerOp κ) (hop : op.isDisconnect = false) (id : Int) :
    ((b.step z op).1.publishers.lookup id).map Pub.key
      = ((b.publishers.lookup id).map Pub.key <|> publisherOf id op) := by
  have heffect := step_effect (z := z) (b := b) op
  generalize b.step z op = r at heffect ⊢
  cases heffect with
  | disconnected => cases hop
  | published id' key hid =>
    obtain ⟨p, hp⟩ := Option.ne_none_iff_exists'.mp hid
    by_cases hsame : id' = id
    · subst hsame
      simp [publisherOf, hp]
    · simp [publisherOf, hsame]
  | publisherEntered id' key rid pub hid =>
    by_cases hsame : id' = id
    · subst hsame
      simp [publisherOf, hid]
    · simp [publisherOf, AList.lookup_insert_ne (Ne.symm hsame), hsame]
  | _ => simp [publisherOf]

/-- What a step does to the table of the subscriptions, with a zenoh that declares them. -/
theorem subscribers_step (hz : ∀ calls session key, z.declareSubscriber calls session key ≠ none)
    (op : BrokerOp κ) (hop : op.isDisconnect = false) (id : Int) :
    ((b.step z op).1.subscribers.lookup id).map (fun sub => (sub.key, sub.callback))
      = ((b.subscribers.lookup id).map (fun sub => (sub.key, sub.callback))
          <|> subscriberOf id op) := by
  have heffect := step_effect (z := z) (b := b) op
  generalize b.step z op = r at heffect ⊢
  cases heffect with
  | disconnected => cases hop
  | subscribed id' pattern callback hid =>
    obtain ⟨s, hs⟩ := Option.ne_none_iff_exists'.mp hid
    by_cases hsame : id' = id
    · subst hsame
      simp [subscriberOf, hs]
    · simp [subscriberOf, hsame]
  | subscriberRefused id' pattern callback hid hsub => exact absurd hsub (hz _ _ _)
  | subscriberDeclared id' pattern callback sub hid =>
    by_cases hsame : id' = id
    · subst hsame
      simp [subscriberOf, hid]
    · simp [subscriberOf, AList.lookup_insert_ne (Ne.symm hsame), hsame]
  | _ => simp [subscriberOf]

theorem subscribers_inForce
    (hz : ∀ calls session key, z.declareSubscriber calls session key ≠ none)
    (ops : List (BrokerOp κ)) (id : Int) :
    ((new.run z ops).subscribers.lookup id).map (fun sub => (sub.key, sub.callback))
      = inForce (subscriberOf id) ops := by
  induction ops using List.reverseRecOn with
  | nil => rfl
  | append_singleton ops op ih =>
    rw [run_append, run_cons, run_nil]
    by_cases hop : op.isDisconnect
    · cases op with
      | disconnect => rw [inForce_disconnect]; rfl
      | _ => cases hop
    · rw [Bool.not_eq_true] at hop
      rw [subscribers_step hz op hop, ih, inForce_concat ops hop]

end

/-- What is in the tables is what is in force, and zenoh has been told. -/
structure Agrees (nameOf : Nat → Str) (ops : List (BrokerOp κ)) (b : BrokerZenoh κ) : Prop where
  publishers : ∀ id, (b.publishers.lookup id).map Pub.key = inForce (publisherOf id) ops
  resources : ∀ id pub, b.publishers.lookup id = some pub →
    ∃ n, pub.znReskey = .rid n ∧ nameOf n = cStr pub.key
  subscribers : ∀ id, (b.subscribers.lookup id).map (fun sub => (sub.key, sub.callback))
    = inForce (subscriberOf id) ops
  live : ∀ id sub, b.subscribers.lookup id = some sub → Live b.calls sub.key id sub.callback

section

variable {z : Zenoh κ} {nameOf : Nat → Str} {ops : List (BrokerOp κ)} {b b' : BrokerZenoh κ}

theorem agrees_of_empty (nameOf : Nat → Str) (hpubs : b.publishers = ∅)
    (hsubs : b.subscribers = ∅) : Agrees nameOf [] b where
  publishers _ := by rw [hpubs]; rfl
  resources _ _ h := by rw [hpubs] at h; cases h
  subscribers _ := by rw [hsubs]; rfl
  live _ _ h := by rw [hsubs] at h; cases h

/-- A step that registers nothing and undeclares nothing. -/
theorem Agrees.other (h : Agrees nameOf ops b) {op : BrokerOp κ} (new : List (ZnCall κ))
    (hop : op.isDisconnect = false) (hpub : ∀ id, publisherOf id op = none)
    (hsub : ∀ id, subscriberOf id op = none) (hpubs : b'.publishers = b.publishers)
    (hsubs : b'.subscribers = b.subscribers) (hcalls : b'.calls = b.calls ++ new)
    (hnew : ∀ sub, .undeclareSubscriber sub ∉ new) : Agrees nameOf (ops ++ [op]) b' where
  publishers id := by rw [inForce_concat ops hop, hpub, hpubs, h.publishers]; simp
  resources id pub hid := h.resources id pub (hpubs ▸ hid)
  subscribers id := by rw [inForce_concat ops hop, hsub, hsubs, h.subscribers]; simp
  live id sub hid := by
    rw [hcalls]
    exact (h.live id sub (hsubs ▸ hid)).append hnew

theorem agrees_disconnect (ops : List (BrokerOp κ)) (b : BrokerZenoh κ) :
    Agrees nameOf (ops ++ [.disconnect]) b.disconnect.1 where
  publishers id := by rw [inForce_disconnect]; rfl
  resources id pub hid := by cases hid
  subscribers id := by rw [inForce_disconnect]; rfl
  live id sub hid := by cases hid

theorem Agrees.publishers_step (h : Agrees nameOf ops b) (op : BrokerOp κ)
    (hop : op.isDisconnect = false) (id : Int) :
    ((b.step z op).1.publishers.lookup id).map Pub.key
      = inForce (publisherOf id) (ops ++ [op]) := by
  rw [BrokerZenoh.publishers_step op hop, inForce_concat ops hop, h.publishers]

theorem Agrees.subscribers_step (hz : z.Succeeds nameOf) (h : Agrees nameOf ops b)
    (op : BrokerOp κ) (hop : op.isDisconnect = false) (id : Int) :
    ((b.step z op).1.subscribers.lookup id).map (fun sub => (sub.key, sub.callback))
      = inForce (subscriberOf id) (ops ++ [op]) := by
  rw [BrokerZenoh.subscribers_step hz.declareSubscriber op hop, inForce_concat ops hop,
    h.subscribers]

theorem Agrees.publisher (hz : z.Succeeds nameOf) (h : Agrees nameOf ops b) (id : Int)
    (key : Str) : Agrees nameOf (ops ++ [.publisher id key]) (b.publisher z id key).1 := by
  refine ⟨h.publishers_step (.publisher id key) rfl, fun id' p hp => ?_,
    h.subscribers_step hz (.publisher id key) rfl, fun id' sub hid' => ?_⟩
  · rcases publisher_spec (z := z) (b := b) id key with ⟨-, heq⟩ | ⟨-, rid, pub, hrid, -, heq⟩
    · rw [heq] at hp
      exact h.resources id' p hp
    -- the entry has the resource that was declared for its key
    · rw [heq] at hp
      by_cases hsame : id' = id
      · subst hsame
        simp only [AList.lookup_insert, Option.some.injEq] at hp
        subst hp
        exact ⟨rid, rfl, by rw [hrid, hz.declareResource]⟩
      · simp only [AList.lookup_insert_ne hsame] at hp
        exact h.resources id' p hp
  · rcases publisher_spec (z := z) (b := b) id key with ⟨-, heq⟩ | ⟨-, rid, pub, -, -, heq⟩
    · rw [heq] at hid' ⊢
      exact h.live id' sub hid'
    · rw [heq] at hid' ⊢
      exact (h.live id' sub hid').append (by simp)

theorem Agrees.subscriber (hz : z.Succeeds nameOf) (h : Agrees nameOf ops b) (id : Int)
    (pattern : Str) (callback : κ) :
    Agrees nameOf (ops ++ [.subscriber id pattern callback])
      (b.subscriber z id pattern callback).1 := by
  refine ⟨h.publishers_step (.subscriber id pattern callback) rfl, fun id' p hp => ?_,
    h.subscribers_step hz (.subscriber id pattern callback) rfl, fun id' s hs => ?_⟩
  · rcases subscriber_spec (z := z) (b := b) id pattern callback with
      ⟨-, heq⟩ | ⟨-, zsub, hzsub, heq⟩
    · rw [heq] at hp
      exact h.resources id' p hp
    · rw [heq, if_neg (hzsub ▸ hz.declareSubscriber _ _ _)] at hp
      exact h.resources id' p hp
  · rcases subscriber_spec (z := z) (b := b) id pattern callback with
      ⟨-, heq⟩ | ⟨-, zsub, hzsub, heq⟩
    · rw [heq] at hs ⊢
      exact h.live id' s hs
    · have hsome : zsub ≠ none := hzsub ▸ hz.declareSubscriber _ _ _
      -- zenoh has answered with a subscription, which is entered
      obtain ⟨sub, rfl⟩ := Option.ne_none_iff_exists'.mp hsome
      rw [heq, if_neg hsome] at hs ⊢
      by_cases hsame : id' = id
      · subst hsame
        simp only [AList.lookup_insert, Option.some.injEq] at hs
        subst hs
        exact ⟨sub, b.calls, b.session, [], rfl, by simp⟩
      · simp only [AList.lookup_insert_ne hsame] at hs
        exact (h.live id' s hs).append (by simp)

/-- **One step keeps the agreement.** -/
theorem Agrees.step (hz : z.Succeeds nameOf) (h : Agrees nameOf ops b) (op : BrokerOp κ)
    (hop : op.isUnSubscribe = false) : Agrees nameOf (ops ++ [op]) (b.step z op).1 := by
  cases op with
  | connect clientId =>
    rcases connect_spec (z := z) (b := b) clientId with ⟨-, heq⟩ | ⟨-, heq⟩
    · rw [BrokerZenoh.step, heq]
      exact h.other [] rfl (fun _ => rfl) (fun _ => rfl) rfl rfl (by simp) (by simp)
    · rw [BrokerZenoh.step, heq]
      exact h.other _ rfl (fun _ => rfl) (fun _ => rfl) rfl rfl rfl (by simp)
  | disconnect => exact agrees_disconnect ops b
  | subscriber id pattern callback => exact h.subscriber hz id pattern callback
  -- it leaves the entry in the table, so the two would no longer agree
  | unSubscribe id => cases hop
  | publisher id key => exact h.publisher hz id key
  | publish id bs =>
    rcases publish_spec (z := z) (b := b) id bs with ⟨-, heq⟩ | ⟨pub, -, heq⟩
    · rw [BrokerZenoh.step, heq]
      exact h.other [] rfl (fun _ => rfl) (fun _ => rfl) rfl rfl (by simp) (by simp)
    · rw [BrokerZenoh.step, heq]
      exact h.other _ rfl (fun _ => rfl) (fun _ => rfl) rfl rfl rfl (by simp)

theorem Agrees.run (hz : z.Succeeds nameOf) (h : Agrees nameOf ops b) (ops' : List (BrokerOp κ))
    (hops' : ∀ op ∈ ops', op.isUnSubscribe = false) :
    Agrees nameOf (ops ++ ops') (b.run z ops') := by
  induction ops' generalizing ops b with
  | nil => rwa [List.append_nil]
  | cons op ops' ih =>
    rw [List.append_cons, run_cons]
    exact ih (h.step hz op (hops' op (by simp))) fun op' h' => hops' op' (by simp [h'])

theorem Agrees.publish (hz : z.Succeeds nameOf) (h : Agrees nameOf ops b) {id : Int} {key : Str}
    (hforce : inForce (publisherOf id) ops = some key) (v : Bytes) :
    ∃ n, nameOf n = cStr key ∧
      b.publish z id v = (b.call (.write b.session (.rid n) v 0), 0) := by
  rw [← h.publishers id, Option.map_eq_some_iff] at hforce
  obtain ⟨pub, hpub, rfl⟩ := hforce
  obtain ⟨n, hn, hname⟩ := h.resources id pub hpub
  refine ⟨n, hname, ?_⟩
  rcases publish_spec (z := z) (b := b) id v with ⟨hnone, -⟩ | ⟨pub', hpub', heq⟩
  · rw [hnone] at hpub
    cases hpub
  · rw [hpub] at hpub'
    cases hpub'
    rw [heq, hn, hz.write]

/-- There is a subscription to the pattern in force. -/
theorem Agrees.live_inForce (h : Agrees nameOf ops b) {id : Int} {first : Str × κ}
    (hforce : inForce (subscriberOf id) ops = some first) :
    Live b.calls first.1 id first.2 := by
  rw [← h.subscribers id, Option.map_eq_some_iff] at hforce
  obtain ⟨sub, hsub, rfl⟩ := hforce
  exact h.live id sub hsub

theorem publisher_zero (id : Int) (key : Str) : (b.publisher z id key).2 = 0 := by
  rcases publisher_spec (z := z) (b := b) id key with ⟨-, heq⟩ | ⟨-, _, _, -, -, heq⟩ <;> rw [heq]

theorem subscriber_zero (hz : z.Succeeds nameOf) (id : Int) (pattern : Str) (callback : κ) :
    (b.subscriber z id pattern callback).2 = 0 := by
  rcases subscriber_spec (z := z) (b := b) id pattern callback with
    ⟨-, heq⟩ | ⟨-, zsub, hzsub, heq⟩
  · rw [heq]
  · rw [heq, if_neg (hzsub ▸ hz.declareSubscriber _ _ _)]

end

/-- **The first registration is in force.** After any calls, registering reports success; as
long as `disconnect` and `unSubscribe` are not called, a published value is written under
the key, and there is a subscription to the pattern, of the first registration of the
identifier since the last `disconnect`. -/
theorem first_registration_in_force (z : Zenoh κ) (nameOf : Nat → Str) (hz : z.Succeeds nameOf)
    (before after : List (BrokerOp κ)) (hbefore : ∀ op ∈ before, op.isUnSubscribe = false)
    (hafter : ∀ op ∈ after, op.isUnSubscribe = false ∧ op.isDisconnect = false) (id : Int) :
    (∀ key,
      let registered := (new.run z before).publisher z id key
      registered.2 = 0 ∧ ∀ v,
        let b := registered.1.run z after
        ∃ n, nameOf n = cStr ((inForce (publisherOf id) before).getD key) ∧
          b.publish z id v = (b.call (.write b.session (.rid n) v 0), 0)) ∧
    (∀ pattern callback,
      let registered := (new.run z before).subscriber z id pattern callback
      let first := (inForce (subscriberOf id) before).getD (pattern, callback)
      registered.2 = 0 ∧ Live (registered.1.run z after).calls first.1 id first.2) := by
  have hagrees := (agrees_of_empty (b := new) nameOf rfl rfl).run hz before hbefore
  rw [List.nil_append] at hagrees
  have hun : ∀ op ∈ after, op.isUnSubscribe = false := fun op h => (hafter op h).1
  have hdis : ∀ op ∈ after, op.isDisconnect = false := fun op h => (hafter op h).2
  constructor
  · intro key
    refine ⟨publisher_zero id key, fun v => ?_⟩
    have hb := (hagrees.publisher hz id key).run hz after hun
    exact hb.publish hz (inForce_registered before rfl (if_pos rfl) hdis) v
  · intro pattern callback
    refine ⟨subscriber_zero hz id pattern callback, ?_⟩
    have hb := (hagrees.subscriber hz id pattern callback).run hz after hun
    exact hb.live_inForce (inForce_registered before rfl (if_pos rfl) hdis)

end BrokerZenoh

/-! ## A zenoh for which every call succeeds -/

/-- A number for each name. -/
def resourceNumber (name : Str) : Nat := Encodable.encode (name.map UInt8.toNat)

def resourceName (n : Nat) : Str :=
  ((Encodable.decode n : Option (List Nat)).getD []).map UInt8.ofNat

theorem resourceName_resourceNumber (name : Str) : resourceName (resourceNumber name) = name := by
  simp [resourceName, resourceNumber, Function.comp_def]

/-- Handles are numbered by the calls. -/
def Zenoh.succeeding : Zenoh κ where
  open_ calls := some calls.length
  declareResource _ _ key :=
    match key with
    | .rid n => n
    | .rname name => resourceNumber name
  declareSubscriber calls _ _ := some calls.length
  declarePublisher calls _ _ := some calls.length
  write _ _ _ _ := 0

theorem Zenoh.succeeding_succeeds : (succeeding : Zenoh κ).Succeeds resourceName where
  open_ _ := by simp [succeeding]
  declareResource _ _ name := resourceName_resourceNumber name
  declareSubscriber _ _ _ := by simp [succeeding]
  declarePublisher _ _ _ := by simp [succeeding]
  write _ _ _ _ := rfl

namespace BrokerZenoh

open Zenoh (succeeding)

/-- Registering 1 for `b` reports success while 1 stands for `a`, and what is published under
1 goes to `a`. -/
theorem second_registration_ignored :
    let b : BrokerZenoh Unit := new.run succeeding [.connect (str "c"), .publisher 1 (str "a")]
    (b.publisher succeeding 1 (str "b")).2 = 0 ∧
      ((b.publisher succeeding 1 (str "b")).1.publish succeeding 1 [7]).1.calls
        = b.calls ++ [.write (some 0) (.rid (resourceNumber (str "a"))) [7] 0] ∧
      resourceName (resourceNumber (str "a")) = str "a" ∧ str "a" ≠ str "b" :=
  ⟨rfl, rfl, resourceName_resourceNumber _, by decide⟩

/-- Two registrations of 1 with a `disconnect` between them. -/
theorem first_registration_in_force_again :
    let ops : List (BrokerOp Unit) :=
      [.connect (str "c"), .publisher 1 (str "a"), .disconnect]
    (∀ key,
      let registered := (new.run succeeding ops).publisher succeeding 1 key
      registered.2 = 0 ∧ ∀ v,
        let b := registered.1.run succeeding [.publisher 1 (str "z")]
        ∃ n, resourceName n = cStr ((inForce (publisherOf 1) ops).getD key) ∧
          b.publish succeeding 1 v = (b.call (.write b.session (.rid n) v 0), 0)) ∧
    (∀ pattern callback,
      let registered := (new.run succeeding ops).subscriber succeeding 1 pattern callback
      let first := (inForce (subscriberOf 1) ops).getD (pattern, callback)
      registered.2 = 0 ∧ Live (registered.1.run succeeding [.publisher 1 (str "z")]).calls
        first.1 1 first.2) :=
  first_registration_in_force succeeding resourceName Zenoh.succeeding_succeeds
    [.connect (str "c"), .publisher 1 (str "a"), .disconnect] [.publisher 1 (str "z")]
    (by decide) (by decide) 1

end BrokerZenoh

end ZenohProxy
