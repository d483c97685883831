import ZenohProxy.Proxy.Declarations

/-!
# Refused declarations

Zenoh refuses a declaration by answering with the null pointer. A subscription that is refused
fails and is not entered, so the next registration of its identifier declares it again. A
publisher that is refused is entered with the null pointer and reports success: its identifier
is taken, and `disconnect` hands the null pointer back to zenoh.
`refusals_leave_no_trace_iff` says that nothing else goes wrong.
-/

namespace ZenohProxy

variable {κ : Type}

/-- The answer to a declaration of a subscriber or a publisher. -/
def ZnCall.declared : ZnCall κ → Option Handle
  | .declareSubscriber _ _ _ _ sub => some sub
  | .declarePublisher _ _ pub => some pub
  | _ => none

namespace BrokerZenoh

/-- What zenoh answers to the declarations made during a call of the broker. -/
def declarations (z : Zenoh κ) (b : BrokerZenoh κ) (op : BrokerOp κ) : List Handle :=
  ((b.step z op).1.calls.drop b.calls.length).filterMap ZnCall.declared

/-- Refused declarations leave no trace in a run. -/
structure NoTrace (z : Zenoh κ) (ops : List (BrokerOp κ)) : Prop where
  /-- The call fails, and the tables are as they were. -/
  refused : ∀ before op after, ops = before ++ op :: after →
    let b := new.run z before
    none ∈ declarations z b op →
      (b.step z op).2 ≠ 0 ∧ (b.step z op).1.subscribers = b.subscribers ∧
        (b.step z op).1.publishers = b.publishers
  /-- The next registration of the same identifier makes a declaration again. -/
  retried : ∀ before op mid op' after, ops = before ++ op :: (mid ++ op' :: after) →
    none ∈ declarations z (new.run z before) op → op'.slot = op.slot →
    (∀ other ∈ mid, other.slot ≠ op.slot) →
      declarations z (new.run z (before ++ op :: mid)) op' ≠ []
  subscribers : .undeclareSubscriber none ∉ (new.run z ops).calls
  publishers : .undeclarePublisher none ∉ (new.run z ops).calls

/-! ## One step -/

section

variable {z : Zenoh κ} {b : BrokerZenoh κ}

theorem declarations_of_step {op : BrokerOp κ} {new : List (ZnCall κ)}
    (hcalls : (b.step z op).1.calls = b.calls ++ new) :
    declarations z b op = new.filterMap ZnCall.declared := by
  rw [declarations, hcalls, List.drop_left]

/-- A subscription of a free identifier makes one declaration. -/
theorem declarations_subscriber {id : Int} (hid : b.subscribers.lookup id = none) (pattern : Str)
    (callback : κ) : declarations z b (.subscriber id pattern callback)
      = [z.declareSubscriber b.calls b.session (.rname (cStr pattern))] := by
  rcases subscriber_spec (z := z) (b := b) id pattern callback with
    ⟨hnone, -⟩ | ⟨-, zsub, hzsub, heq⟩
  · exact absurd hid hnone
  · have hcalls : (b.step z (.subscriber id pattern callback)).1.calls = b.calls ++
        [.declareSubscriber b.session (.rname (cStr pattern)) id callback zsub] := by
      rw [BrokerZenoh.step, heq]
      split <;> rfl
    rw [declarations_of_step hcalls, ← hzsub]
    rfl

/-- A publisher of one declares a resource, which cannot fail, and the publisher. -/
theorem declarations_publisher {id : Int} (hid : b.publishers.lookup id = none) (key : Str) :
    declarations z b (.publisher id key) = [b.publisherAnswer z key] := by
  rcases publisher_spec (z := z) (b := b) id key with ⟨hnone, -⟩ | ⟨-, rid, pub, hrid, hpub, heq⟩
  · exact absurd hid hnone
  · have hcalls : (b.step z (.publisher id key)).1.calls = b.calls ++
        [.declareResource b.session (.rname (cStr key)) rid,
          .declarePublisher b.session (.rid rid) pub] := by
      rw [BrokerZenoh.step, heq]
    have hanswer : pub = b.publisherAnswer z key := by
      rw [hpub, hrid]
      rfl
    rw [declarations_of_step hcalls, ← hanswer]
    rfl

theorem Free.declarations {slot : Slot} (h : b.Free slot) {op : BrokerOp κ}
    (hop : op.slot = some slot) : declarations z b op ≠ [] := by
  cases op with
  | subscriber id pattern callback =>
    cases hop
    rw [declarations_subscriber h]
    exact List.cons_ne_nil _ _
  | publisher id key =>
    cases hop
    rw [declarations_publisher h]
    exact List.cons_ne_nil _ _
  | _ => cases hop

/-- A declaration is refused in two ways: the subscription is given up, the publisher is
not. -/
theorem refused_step {op : BrokerOp κ} (h : none ∈ declarations z b op) :
    (∃ slot, op.slot = some slot ∧ b.Free slot ∧ (b.step z op).2 ≠ 0 ∧
        (b.step z op).1.subscribers = b.subscribers ∧
        (b.step z op).1.publishers = b.publishers) ∨
      ∃ id key, op = .publisher id key ∧ b.publishers.lookup id = none ∧
        b.publisherAnswer z key = none := by
  unfold declarations at h
  have heffect := step_effect (z := z) (b := b) op
  generalize b.step z op = r at heffect h ⊢
  cases heffect with
  | subscriberRefused id pattern callback hid =>
    refine .inl ⟨.subscriber id, rfl, hid, ?_, rfl, rfl⟩
    show (-1 : Int) ≠ 0
    omega
  | publisherEntered id key rid pub hid hrid hpub =>
    have hnull : pub = none := by simpa [ZnCall.declared, eq_comm] using h
    refine .inr ⟨id, key, rfl, hid, ?_⟩
    rw [← hnull, hpub, hrid]
    rfl
  -- the other calls declare nothing, or with success
  | disconnected => simp [disconnect, ZnCall.declared] at h
  | _ => simp [ZnCall.declared] at h

/-- A refused publisher reports success. -/
theorem publisher_refused {id : Int} {key : Str} (hid : b.publishers.lookup id = none)
    (hanswer : b.publisherAnswer z key = none) :
    none ∈ declarations z b (.publisher id key) ∧ (b.step z (.publisher id key)).2 = 0 := by
  rw [declarations_publisher hid, hanswer]
  exact ⟨List.mem_singleton_self _, publisher_zero id key⟩

end

/-! ## Null handles -/

/-- No handle in the tables is null, and none was handed back to zenoh. -/
structure NonNull (b : BrokerZenoh κ) : Prop where
  subHandles : none ∉ b.subHandles
  pubHandles : none ∉ b.pubHandles
  subscribers : .undeclareSubscriber none ∉ b.calls
  publishers : .undeclarePublisher none ∉ b.calls

theorem nonNull_new : (new : BrokerZenoh κ).NonNull :=
  ⟨List.not_mem_nil, List.not_mem_nil, List.not_mem_nil, List.not_mem_nil⟩

section

variable {z : Zenoh κ} {b : BrokerZenoh κ}

/-- No publisher of a run is refused. -/
def PublishersDeclared (z : Zenoh κ) (b : BrokerZenoh κ) (ops : List (BrokerOp κ)) : Prop :=
  ∀ before id key after, ops = before ++ .publisher id key :: after →
    (b.run z before).publishers.lookup id = none → (b.run z before).publisherAnswer z key ≠ none

theorem mem_subHandles {id : Int} {sub : Sub κ} (hid : b.subscribers.lookup id = some sub) :
    sub.znSubscriber ∈ b.subHandles :=
  List.mem_map_of_mem (AList.mem_lookup_iff.mp hid)

/-- **One step** keeps null handles out, unless a publisher is refused. -/
theorem NonNull.step (h : b.NonNull) (op : BrokerOp κ)
    (hop : ∀ id key, op = .publisher id key → b.publishers.lookup id = none →
      b.publisherAnswer z key ≠ none) : (b.step z op).1.NonNull := by
  refine ⟨subHandles_step h.subHandles op, pubHandles_step h.pubHandles op hop, ?_, ?_⟩
  · have heffect := step_effect (z := z) (b := b) op
    generalize b.step z op = r at heffect ⊢
    cases heffect with
    | connected | subscribed | notSubscribed | published | unknown => exact h.subscribers
    | opened | subscriberRefused | subscriberDeclared | publisherEntered | written =>
      simpa using h.subscribers
    | disconnected => simpa [disconnect_calls, eq_comm] using ⟨h.subscribers, h.subHandles⟩
    | unSubscribed id sub hid =>
      have hsub : sub.znSubscriber ≠ none := fun hnull => h.subHandles (hnull ▸ mem_subHandles hid)
      simpa [eq_comm] using ⟨h.subscribers, hsub⟩
  · have heffect := step_effect (z := z) (b := b) op
    generalize b.step z op = r at heffect ⊢
    cases heffect with
    | connected | subscribed | notSubscribed | published | unknown => exact h.publishers
    | disconnected => simpa [disconnect_calls, eq_comm] using ⟨h.publishers, h.pubHandles⟩
    | _ => simpa using h.publishers

theorem NonNull.run (h : b.NonNull) (ops : List (BrokerOp κ))
    (hops : PublishersDeclared z b ops) : (b.run z ops).NonNull := by
  induction ops generalizing b with
  | nil => exact h
  | cons op ops ih =>
    refine ih (h.step op fun id key hop => hops [] id key ops (by rw [hop]; rfl)) ?_
    intro before id key after hsplit
    exact hops (op :: before) id key after (by rw [hsplit]; rfl)

end

/-- **When refused declarations leave no trace.** Whatever zenoh answers, in any run: exactly
when no publisher of an unregistered identifier is refused. A refused subscription never leaves
one. -/
theorem refusals_leave_no_trace_iff (z : Zenoh κ) (ops : List (BrokerOp κ)) :
    NoTrace z ops ↔ PublishersDeclared z new ops := by
  constructor
  · intro h before id key after hsplit hid hanswer
    have hrefused := publisher_refused hid hanswer
    exact (h.refused before _ after hsplit hrefused.1).1 hrefused.2
  · intro h
    have hnonNull : (new.run z ops).NonNull := nonNull_new.run ops h
    have hgiven : ∀ before op after, ops = before ++ op :: after →
        none ∈ declarations z (new.run z before) op →
        ∃ slot, op.slot = some slot ∧ (new.run z before).Free slot ∧
          ((new.run z before).step z op).2 ≠ 0 ∧
          ((new.run z before).step z op).1.subscribers = (new.run z before).subscribers ∧
          ((new.run z before).step z op).1.publishers = (new.run z before).publishers := by
      intro before op after hsplit hnull
      rcases refused_step hnull with hgiven | ⟨id, key, rfl, hid, hanswer⟩
      · exact hgiven
      · exact absurd hanswer (h before id key after hsplit hid)
    refine ⟨?_, ?_, hnonNull.subscribers, hnonNull.publishers⟩
    · intro before op after hsplit b hnull
      obtain ⟨slot, -, -, hrefused⟩ := hgiven before op after hsplit hnull
      exact hrefused
    · intro before op mid op' after hsplit hnull hslot hmid
      obtain ⟨slot, hop, hfree, -, hsubs, hpubs⟩ := hgiven before op _ hsplit hnull
      have hstill : (new.run z (before ++ [op])).Free slot := by
        rw [run_append, run_cons, run_nil]
        cases slot with
        | subscriber id => exact (congrArg (AList.lookup id) hsubs).trans hfree
        | publisher id => exact (congrArg (AList.lookup id) hpubs).trans hfree
      have hfree' : (new.run z (before ++ op :: mid)).Free slot := by
        rw [List.append_cons, run_append]
        exact hstill.run (hop ▸ hmid)
      exact hfree'.declarations (hslot.trans hop)

/-- A zenoh that refuses publishers. -/
def refusing : Zenoh Unit := { Zenoh.succeeding with declarePublisher := fun _ _ _ => none }

/-- The publisher 1 is refused, and the client goes away: zenoh is handed a null pointer. -/
theorem refused_publisher_undeclared :
    ¬ NoTrace refusing [.connect (str "c"), .publisher 1 (str "a"), .disconnect] := by
  intro h
  have hnull := h.publishers
  revert hnull
  decide

end BrokerZenoh

end ZenohProxy
