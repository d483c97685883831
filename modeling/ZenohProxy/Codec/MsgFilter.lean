import ZenohProxy.Codec.Complete
import ZenohProxy.Codec.RoundTrip

/-!
# The filter on a message type

Each handler of the proxy and of the micro-controller sits behind a `MsgFilter`: a payload
goes on when the decode of its type succeeds and gives the type of the filter. The type is
decoded into a member that lives as long as the filter, so a payload whose type is not
decoded is judged by the type of an earlier one. `filter_exact_iff` says for which payloads
the decision is about the payload alone, and right.
-/

namespace ZenohProxy

open Cbor (Cursor StartsWithInt)
open CborDeserializer

/-- `MsgFilter`. Its `msgBase` is not initialised. -/
structure MsgFilter (T : TinyCbor) where
  msgType : Int
  msgBase : MsgBase
  fromCbor : CborDeserializer T
  deriving DecidableEq

namespace MsgFilter

variable {T : TinyCbor}

/-- What the flow does with a payload: the payload goes on, or nothing does. -/
def on (f : MsgFilter T) (payload : Bytes) : MsgFilter T × Option Bytes :=
  let (msgBase, fromCbor) := f.msgBase.reflect (f.fromCbor.fromBytes payload)
  ({ f with msgBase, fromCbor },
    if fromCbor.success ∧ msgBase.msgType = f.msgType then some payload else none)

/-- The filter after some payloads. -/
def feed (f : MsgFilter T) (payloads : List Bytes) : MsgFilter T :=
  payloads.foldl (fun f payload => (f.on payload).1) f

/-- Does a payload go on? -/
def passes (f : MsgFilter T) (payload : Bytes) : Bool := (f.on payload).2.isSome

theorem on_eq (f : MsgFilter T) (payload : Bytes) :
    (f.on payload).2 = if f.passes payload then some payload else none := by
  unfold passes on
  dsimp only
  split <;> rfl

theorem passes_iff (f : MsgFilter T) (payload : Bytes) :
    f.passes payload = true ↔
      (f.msgBase.reflect (f.fromCbor.fromBytes payload)).2.success = true ∧
        (f.msgBase.reflect (f.fromCbor.fromBytes payload)).1.msgType = f.msgType := by
  unfold passes on
  dsimp only
  split <;> simp_all

@[simp] theorem feed_nil (f : MsgFilter T) : f.feed [] = f := rfl

theorem feed_msgType (f : MsgFilter T) (payloads : List Bytes) :
    (f.feed payloads).msgType = f.msgType := by
  induction payloads generalizing f with
  | nil => rfl
  | cons p ps ih => exact ih (f.on p).1

theorem feed_capacity (f : MsgFilter T) (payloads : List Bytes) :
    (f.feed payloads).fromCbor.capacity = f.fromCbor.capacity := by
  induction payloads generalizing f with
  | nil => rfl
  | cons p ps ih =>
    refine (ih (f.on p).1).trans ?_
    exact capacity_memberInt _ _

/-- `MsgFilter(k)`: a decoder of 1024 octets, and nothing known of `msgBase`. -/
structure IsFor (f : MsgFilter T) (k : Int) : Prop where
  msgType : f.msgType = k
  capacity : f.fromCbor.capacity = 1024

theorem IsFor.feed {f : MsgFilter T} {k : Int} (h : f.IsFor k) (payloads : List Bytes) :
    (f.feed payloads).IsFor k :=
  ⟨(f.feed_msgType payloads).trans h.msgType, (f.feed_capacity payloads).trans h.capacity⟩

end MsgFilter

/-- A message passes the filter of its type and no other. -/
theorem MsgFilter.IsFor.passes_encodeArray {T : TinyCbor} (hT : T.Documented) {f : MsgFilter T}
    {k k' : Int} (hf : f.IsFor k') (hk : IsInt32 k) {xs : List Cbor.Scalar}
    (hxs : ∀ x ∈ xs, x.Fits) (hlen : (Cbor.encodeArray (.int k :: xs)).length ≤ 1024) :
    f.passes (Cbor.encodeArray (.int k :: xs)) = true ↔ k = k' := by
  obtain ⟨hbase, hsuccess⟩ := MsgBase.reflect_encodeArray hT f.fromCbor hk hxs
    (by rw [hf.capacity]; exact hlen) f.msgBase
  rw [f.passes_iff, hbase, hf.msgType]
  exact ⟨fun h => h.2, fun h => ⟨hsuccess, h⟩⟩

/-- The decision on a payload is right after any payloads. -/
def FilteredExactly (k : Int) (payload : Bytes) : Prop :=
  ∀ T : TinyCbor, T.Documented → ∀ f : MsgFilter T, f.IsFor k → ∀ before : List Bytes,
    (f.feed before).passes payload = true ↔ StartsWithInt k payload

/-- The payload opens a container whose first element is of fixed size. Either what comes
after that is malformed, or it is an integer, and one that becomes `k` as an `int` is `k`,
in an array. -/
def TypeDecides (k : Int) (payload : Bytes) : Prop :=
  ∃ c, Cursor.opened (payload.take 1024) = some c ∧ c.isFixed ∧
    (c.passFixed = none ∨
      ∃ v, c.head?.bind Cbor.Head.int? = some v ∧
        (toInt32 v = k → v = k ∧
          ∃ len rest, Cbor.readHead payload = some (.array len, rest)))

/-! ## When the first element decides -/

section

variable {T : TinyCbor} {f : MsgFilter T} {k : Int} {payload : Bytes} {c : Cursor}

/-- What a filter decides by, once the payload has opened at an element of fixed size. -/
theorem MsgFilter.passes_of_opened (hT : T.Documented) (hf : f.IsFor k)
    (hopened : Cursor.opened (payload.take 1024) = some c) (hfixed : c.isFixed) :
    f.passes payload = true ↔
      c.passFixed ≠ none ∧
        ((c.head?.bind Cbor.Head.int?).map toInt32).getD f.msgBase.msgType = k := by
  have hbegin := follows_begin hT.moves f.fromCbor payload
  rw [hf.capacity] at hbegin
  obtain ⟨herr, hit⟩ := reached_some.mp (hbegin c hopened)
  have hreached := memberInt_reached hT.moves f.msgBase.msgType (hit.symm ▸ hfixed)
  rw [hit] at hreached
  -- the decode succeeds where the first element can be passed over, and reads its integer
  obtain ⟨extent, h, rest, rfl⟩ : ∃ extent h rest, c = .elem extent h rest := by
    cases c with
    | elem extent h rest => exact ⟨extent, h, rest, rfl⟩
    | _ => cases hfixed
  rw [MsgFilter.passes_iff, hf.msgType, ← Option.isSome_iff_ne_none]
  exact and_congr (Eq.congr_left hreached.success)
    (Eq.congr_left (memberInt_value hT f.msgBase.msgType herr hit))

theorem filteredExactly_of_typeDecides (hk : IsInt32 k) (h : TypeDecides k payload) :
    FilteredExactly k payload := by
  intro T hT f hf before
  obtain ⟨c, hopened, hfixed, hc⟩ := h
  rw [(MsgFilter.passes_of_opened hT (hf.feed before) hopened hfixed)]
  constructor
  · rintro ⟨hpass, hint⟩
    -- the first element is passed over, so it is an integer that becomes `k`
    obtain ⟨v, hv, hdecides⟩ := hc.resolve_left hpass
    rw [hv] at hint
    obtain ⟨rfl, len, rest, harray⟩ := hdecides hint
    exact Cbor.startsWithInt_of_opened harray hopened hv hpass
  · intro hstarts
    obtain ⟨extent, r, rfl, hpass⟩ := hstarts.opened (by decide) hopened
    refine ⟨hpass, ?_⟩
    simp [Cursor.head?, toInt32_of_isInt32 hk]

/-- A filter of the lenient library that has last seen the type `stale`. -/
def MsgFilter.lenientFor (k stale : Int) : MsgFilter lenient := ⟨k, ⟨stale⟩, .new lenient 1024⟩

theorem MsgFilter.lenientFor_isFor (k stale : Int) : (lenientFor k stale).IsFor k := ⟨rfl, rfl⟩

/-- Where the payload does not open at an element of fixed size, the lenient library leaves
the decision to the type seen before. -/
theorem MsgFilter.lenientFor_passes_astray {stale : Int}
    (hastray : ∀ c, Cursor.opened (payload.take 1024) = some c → c.isFixed = false) :
    (lenientFor k stale).passes payload = true ↔ stale = k := by
  let d := CborDeserializer.new lenient 1024
  have hfixed : (d.fromBytes payload).begin_.it.isFixed = false := by
    rw [lenient_begin]
    cases hc : Cursor.afterFixed (payload.take d.capacity) 0 with
    | none => rfl
    | some c => exact hastray c hc
  obtain ⟨hread, hsuccess⟩ := lenient_memberInt_astray hfixed stale
  rw [MsgFilter.passes_iff]
  exact ⟨fun h => hread.symm.trans h.2, fun h => ⟨hsuccess, hread.trans h⟩⟩

theorem typeDecides_of_filteredExactly (h : FilteredExactly k payload) :
    TypeDecides k payload := by
  have hT := TinyCbor.reference_documented (.noError, .invalid)
  have hlenient (stale : Int) := h lenient hT _ (MsgFilter.lenientFor_isFor k stale) []
  simp only [MsgFilter.feed_nil] at hlenient
  -- a decision that is left to the type seen before is wrong for one such type
  have hstale (hpasses : ∀ stale, (MsgFilter.lenientFor k stale).passes payload = true ↔
      stale = k) : False := by
    have hk := (hlenient k).mp ((hpasses k).mpr rfl)
    have := (hpasses (k + 1)).mp ((hlenient (k + 1)).mpr hk)
    omega
  by_cases hastray : ∀ c, Cursor.opened (payload.take 1024) = some c → c.isFixed = false
  · exact (hstale fun stale => MsgFilter.lenientFor_passes_astray hastray).elim
  · simp only [not_forall, Bool.not_eq_false] at hastray
    obtain ⟨c, hopened, hfixed⟩ := hastray
    refine ⟨c, hopened, hfixed, ?_⟩
    have hpasses (stale : Int) := MsgFilter.passes_of_opened hT
      (MsgFilter.lenientFor_isFor k stale) hopened hfixed
    by_cases hpass : c.passFixed = none
    · exact .inl hpass
    · right
      cases hint : c.head?.bind Cbor.Head.int? with
      -- an element that is no integer leaves the type as it was
      | none =>
        refine (hstale fun stale => (hpasses stale).trans ?_).elim
        rw [hint]
        exact ⟨fun h => h.2, fun h => ⟨hpass, h⟩⟩
      | some v =>
        refine ⟨v, rfl, fun hv => ?_⟩
        have hstarts := (hlenient 0).mp ((hpasses 0).mpr ⟨hpass, by rw [hint]; exact hv⟩)
        obtain ⟨extent, r, rfl, -⟩ := hstarts.opened (by decide) hopened
        obtain ⟨len, rest, -, harray, -⟩ := hstarts
        simp only [Cursor.head?, Option.bind_some, Cbor.int?_intHead, Option.some.injEq] at hint
        exact ⟨hint.symm, len, rest, harray⟩

end

/-- **Exactly when dispatch is decided by the frame alone.** The payload opens a container
whose first element is of fixed size; either the octets after that element are malformed, or
it is an integer that as an `int` is not the type of the filter, or it is that type itself
in an array. -/
theorem filter_exact_iff (k : Int) (hk : IsInt32 k) (payload : Bytes) :
    FilteredExactly k payload ↔ TypeDecides k payload :=
  ⟨typeDecides_of_filteredExactly, filteredExactly_of_typeDecides hk⟩

/-- A well-formed publish message meets the condition. -/
theorem filter_exact_publish :
    TypeDecides 4 (Cbor.encodeArray (MsgPublish.elements ⟨3, [1]⟩)) ∧
      FilteredExactly 4 (Cbor.encodeArray (MsgPublish.elements ⟨3, [1]⟩)) := by
  have hdecides : TypeDecides 4 (Cbor.encodeArray (MsgPublish.elements ⟨3, [1]⟩)) :=
    ⟨_, rfl, rfl, .inr ⟨4, rfl, fun _ => ⟨rfl, _, _, rfl⟩⟩⟩
  exact ⟨hdecides, (filter_exact_iff 4 (by decide) _).mpr hdecides⟩

/-- `[true]` passes the filter of the publish messages after one of them, and not before. -/
theorem filter_stale :
    ((MsgFilter.lenientFor 4 0).feed []).passes [0x81, 0xF5] = false ∧
      ((MsgFilter.lenientFor 4 0).feed [[0x9F, 0x04, 0xFF]]).passes [0x81, 0xF5] = true ∧
      ¬ FilteredExactly 4 [0x81, 0xF5] := by
  have hbefore : ((MsgFilter.lenientFor 4 0).feed []).passes [0x81, 0xF5] = false := rfl
  have hafter : ((MsgFilter.lenientFor 4 0).feed [[0x9F, 0x04, 0xFF]]).passes [0x81, 0xF5]
      = true := rfl
  refine ⟨hbefore, hafter, fun hexact => ?_⟩
  have hT := TinyCbor.reference_documented (.noError, .invalid)
  have hdecision := hexact lenient hT _ (MsgFilter.lenientFor_isFor 4 0)
  have := (hdecision []).mpr ((hdecision _).mp hafter)
  rw [hbefore] at this
  cases this

end ZenohProxy
