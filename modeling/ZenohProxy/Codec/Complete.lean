import ZenohProxy.Codec.Deserializer

/-!
# When a successful decode is a complete one

`success` looks at the answer to the last move only. What went wrong before that is
forgotten, and an element of another type than the member's is passed over. So a successful
decode says that the array was complete only for some octets: `success_complete_iff` says
for which.
-/

namespace ZenohProxy

open Cbor (Cursor Scalar StartsArray)
open CborDeserializer

/-- The members of a message after its type, as elements of an array. -/
def MsgConnect.fields (m : MsgConnect) : List Scalar := [.string .text m.clientId]

def MsgPublish.fields (m : MsgPublish) : List Scalar := [.int m.id, .string .bytes m.value]

def MsgPublisher.fields (m : MsgPublisher) : List Scalar := [.int m.id, .string .text m.topic]

def MsgSubscriber.fields (m : MsgSubscriber) : List Scalar := [.int m.id, .string .text m.topic]

/-- The octets are an array of at least an integer and the given values, in this order. -/
def Complete (fields : List Scalar) (bs : Bytes) : Prop :=
  Cbor.isArray bs ∧ ∃ type, StartsArray (.int type :: fields) bs

theorem Complete.unique {xs ys : List Scalar} {bs : Bytes} (hx : Complete xs bs)
    (hy : Complete ys bs) (hlen : xs.length = ys.length) : xs = ys := by
  obtain ⟨-, _, hx⟩ := hx
  obtain ⟨-, _, hy⟩ := hy
  exact (List.cons.inj (hx.unique hy (by simp [hlen]))).2

/-- Whatever library it is and whatever the message held, a successful decode is complete. -/
def SoundOn {M : Type} (decode : (T : TinyCbor) → M → CborDeserializer T → M × CborDeserializer T)
    (fields : M → List Scalar) (capacity : Nat) (bs : Bytes) : Prop :=
  ∀ T : TinyCbor, T.Documented → ∀ d : CborDeserializer T, d.capacity = capacity → ∀ m : M,
    (decode T m (d.fromBytes bs)).2.success = true →
      Complete (fields (decode T m (d.fromBytes bs)).1) bs

/-- The last of `n + 1` members stands after `n` elements of fixed size. Either it cannot be
passed over, or the octets are what they should be. -/
def LastDecides (capacity : Nat) (bs : Bytes) (n : Nat) (asExpected : Prop) : Prop :=
  ∃ c, Cursor.afterFixed (bs.take capacity) n = some c ∧ c.isElem ∧
    (c.pass cborMaxRecursions = none ∨ asExpected)

/-! ## A library that reports no error where nothing is known -/

/-- Outside the preconditions it leads nowhere and reports no error. -/
abbrev lenient : TinyCbor := TinyCbor.reference (.noError, .invalid)

namespace CborDeserializer

theorem lenient_begin (d : CborDeserializer lenient) (bs : Bytes) :
    (d.fromBytes bs).begin_.it
      = (Cursor.afterFixed (bs.take d.capacity) 0).getD .invalid := by
  show (lenient.enterContainer (answer (Cursor.start (bs.take d.capacity))).2).2 = _
  rw [Cursor.afterFixed, Cursor.opened]
  cases Cursor.start (bs.take d.capacity) with
  | none => rfl
  | some root =>
    -- entering what is no container is outside the precondition
    show (if root.isContainer then answer root.enter else (.noError, .invalid)).2
      = (if root.isContainer then root.enter else none).getD .invalid
    split
    · cases root.enter <;> rfl
    · rfl

theorem lenient_advanceFixed (c : Cursor) :
    (lenient.advanceFixed c).2 = c.stepFixed.getD .invalid := by
  show (if c.isFixed then answer c.passFixed else (.noError, .invalid)).2
    = (if c.isFixed then c.passFixed else none).getD .invalid
  split
  · cases c.passFixed <;> rfl
  · rfl

section

variable {d : CborDeserializer lenient} {bs : Bytes} {n : Nat}

theorem lenient_step {d' : CborDeserializer lenient}
    (hd : d.it = (Cursor.afterFixed bs n).getD .invalid)
    (hmoves : (d'.err, d'.it) = lenient.advanceFixed d.it) :
    d'.it = (Cursor.afterFixed bs (n + 1)).getD .invalid := by
  have hit : d'.it = d.it.stepFixed.getD .invalid :=
    (congrArg Prod.snd hmoves).trans (lenient_advanceFixed d.it)
  rw [hit, hd, Cursor.afterFixed]
  cases Cursor.afterFixed bs n <;> rfl

theorem lenient_memberConst (hd : d.it = (Cursor.afterFixed bs n).getD .invalid) (t : Int) :
    (d.memberConst t).it = (Cursor.afterFixed bs (n + 1)).getD .invalid :=
  lenient_step hd (memberConst_moves d t)

theorem lenient_memberInt (hd : d.it = (Cursor.afterFixed bs n).getD .invalid) (t : Int) :
    (d.memberInt t).2.it = (Cursor.afterFixed bs (n + 1)).getD .invalid :=
  lenient_step hd (memberInt_moves d t)

theorem lenient_memberInt_isInt32 {t : Int} (ht : IsInt32 t) (d : CborDeserializer lenient) :
    IsInt32 (d.memberInt t).1 := by
  unfold memberInt
  split
  · simp only [lenient, TinyCbor.reference]
    cases d.it.head?.bind Cbor.Head.int? with
    | none => exact (by decide : IsInt32 0)
    | some v => exact isInt32_toInt32 v
  · exact ht

theorem lenient_advance_astray (hd : d.it.isElem = false) : d.advance.success = true := by
  simp [advance, lenient, TinyCbor.reference, hd, success]

/-- Where no element of fixed size is, an integer keeps its value and there is no error. -/
theorem lenient_memberInt_astray (hd : d.it.isFixed = false) (t : Int) :
    (d.memberInt t).1 = t ∧ (d.memberInt t).2.success = true := by
  have hinteger : isInteger d.it = false := by
    cases hit : d.it with
    | elem extent h rest =>
      rw [hit] at hd
      cases h <;> first | rfl | cases hd
    | _ => rfl
  simp [memberInt, hinteger, advanceFixed, lenient, TinyCbor.reference, hd, success]

/-- Where no element is, a last member keeps its value and the decode succeeds. -/
theorem lenient_memberBytes_astray (hd : d.it.isElem = false) (t : Bytes) :
    (d.memberBytes t).1 = t ∧ (d.memberBytes t).2.success = true := by
  have hbytes : isByteString d.it = false := by
    cases hit : d.it <;> first | rfl | (rw [hit] at hd; cases hd)
  simp [memberBytes, hbytes, lenient_advance_astray hd]

theorem lenient_memberString_astray (hd : d.it.isElem = false) (t : Str) :
    (d.memberString t).1 = t ∧ (d.memberString t).2.success = true := by
  have htext : isTextString d.it = false := by
    cases hit : d.it <;> first | rfl | (rw [hit] at hd; cases hd)
  simp [memberString, htext, lenient_advance_astray hd]

end

end CborDeserializer

/-! ## Message by message -/

section

variable {capacity : Nat} {bs : Bytes}

/-- There is an element at the last member, or the lenient library goes astray. -/
theorem elem_or_astray (bs : Bytes) (n : Nat) :
    (∃ c, Cursor.afterFixed bs n = some c ∧ c.isElem) ∨
      ((Cursor.afterFixed bs n).getD .invalid).isElem = false := by
  cases Cursor.afterFixed bs n with
  | none => exact .inr rfl
  | some c =>
    cases hc : c.isElem with
    | true => exact .inl ⟨c, rfl, hc⟩
    | false => exact .inr hc

/-- The octets of an array are read from the part of them that fits in the buffer. -/
theorem Complete.readsFrom {fields : List Scalar} (h : Complete fields bs) :
    Cursor.ReadsFrom (bs.take capacity) (bs.drop capacity) 1 fields := by
  obtain ⟨-, type, hstarts⟩ := h
  rw [← List.take_append_drop capacity bs] at hstarts
  exact (Cursor.readsFrom_start hstarts).next

/-- The rule for a decode whose success is that of passing over its last member. With the
lenient library it is sound only where an element stands there: elsewhere two messages would
be read off the same octets. -/
theorem soundOn_iff_of_last {M : Type} {n : Nat} {p : Prop}
    {decode : (T : TinyCbor) → M → CborDeserializer T → M × CborDeserializer T}
    {fields : M → List Scalar}
    (hlast : ∀ T : TinyCbor, T.Moves → ∀ (m : M) (d : CborDeserializer T), d.capacity = capacity →
      ∀ c, Cursor.afterFixed (bs.take capacity) n = some c → c.isElem →
        (decode T m (d.fromBytes bs)).2.success = (c.pass cborMaxRecursions).isSome)
    (m₀ : M)
    (hexpected : Complete
      (fields (decode lenient m₀ ((CborDeserializer.new lenient capacity).fromBytes bs)).1) bs → p)
    (hastray : ((Cursor.afterFixed (bs.take capacity) n).getD .invalid).isElem = false →
      let read m := decode lenient m ((CborDeserializer.new lenient capacity).fromBytes bs)
      ∃ m m', (read m).2.success = true ∧ (read m').2.success = true ∧
        (fields (read m).1).length = (fields (read m').1).length ∧
          fields (read m).1 ≠ fields (read m').1)
    (hread : p → ∀ T : TinyCbor, T.Documented → ∀ (m : M) (d : CborDeserializer T),
      d.capacity = capacity → ∀ c, Cursor.afterFixed (bs.take capacity) n = some c → c.isElem →
        c.pass cborMaxRecursions ≠ none → Complete (fields (decode T m (d.fromBytes bs)).1) bs) :
    SoundOn decode fields capacity bs ↔ LastDecides capacity bs n p := by
  constructor
  · intro hsound
    have hT := TinyCbor.reference_documented (.noError, .invalid)
    have hlenient := hsound lenient hT (CborDeserializer.new lenient capacity) rfl
    rcases elem_or_astray (bs.take capacity) n with ⟨c, hc, helem⟩ | hnone
    · refine ⟨c, hc, helem, ?_⟩
      cases hpass : c.pass cborMaxRecursions with
      | none => exact .inl rfl
      | some c' =>
        have hsucceeds := hlast lenient hT.moves m₀ (CborDeserializer.new lenient capacity) rfl c
          hc helem
        rw [hpass] at hsucceeds
        exact .inr (hexpected (hlenient m₀ hsucceeds))
    · obtain ⟨m, m', hm, hm', hlength, hne⟩ := hastray hnone
      exact absurd ((hlenient m hm).unique (hlenient m' hm') hlength) hne
  · rintro ⟨c, hc, helem, hdecides⟩ T hT d hcapacity m hsuccess
    rw [hlast T hT.moves m d hcapacity c hc helem, Option.isSome_iff_ne_none] at hsuccess
    exact hread (hdecides.resolve_left hsuccess) T hT m d hcapacity c hc helem hsuccess

theorem MsgConnect.soundOn_iff :
    SoundOn (fun _ => MsgConnect.reflect) MsgConnect.fields capacity bs ↔
      LastDecides capacity bs 1 (∃ s, 0 ∉ s ∧ Complete [.string .text s] bs) := by
  refine soundOn_iff_of_last ?_ ⟨[]⟩ ?_ ?_ ?_
  · rintro T hT m d rfl c hc helem
    have hconst := (follows_begin hT d bs).memberConst hT MsgType.connect.code
    exact hconst.last hc helem (memberString_reached hT m.clientId)
  · exact fun hcomplete => ⟨_, memberString_no_nul (by simp) _, hcomplete⟩
  · intro hastray
    -- the text is the one the message had before, whatever that was
    have hstale (s : Str) := lenient_memberString_astray
      ((lenient_memberConst (lenient_begin (CborDeserializer.new lenient capacity) bs)
        MsgType.connect.code).symm ▸ hastray) s
    refine ⟨⟨[]⟩, ⟨[1]⟩, (hstale []).2, (hstale [1]).2, rfl, fun hsame => ?_⟩
    have htext := (Scalar.string.inj (List.cons.inj hsame).1).2
    exact absurd ((hstale []).1.symm.trans (htext.trans (hstale [1]).1)) (by simp)
  · rintro ⟨s, hnul, hcomplete⟩ T hT m d rfl c hc helem hpass
    have hconst := (follows_begin hT.moves d bs).memberConst hT.moves MsgType.connect.code
    obtain ⟨herr, hit⟩ := reached_some.mp (hconst c hc)
    have htext := memberString_value hT m.clientId herr
      (hit ▸ hcomplete.readsFrom.string hc helem hpass)
    rw [cStr_of_no_nul hnul] at htext
    exact Eq.subst (motive := fun t => Complete [.string .text t] bs) htext.symm hcomplete

theorem MsgPublish.soundOn_iff :
    SoundOn (fun _ => MsgPublish.reflect) MsgPublish.fields capacity bs ↔
      LastDecides capacity bs 2
        (∃ id s, IsInt32 id ∧ Complete [.int id, .string .bytes s] bs) := by
  refine soundOn_iff_of_last ?_ ⟨0, []⟩ ?_ ?_ ?_
  · rintro T hT m d rfl c hc helem
    have hid := ((follows_begin hT d bs).memberConst hT MsgType.publish.code).memberInt hT m.id
    exact hid.last hc helem (memberBytes_reached hT m.value)
  · exact fun hcomplete => ⟨_, _, lenient_memberInt_isInt32 (by decide) _, hcomplete⟩
  · intro hastray
    -- the value is the one the message had before, whatever that was
    have hstale (s : Bytes) := lenient_memberBytes_astray ((lenient_memberInt
      (lenient_memberConst (lenient_begin (CborDeserializer.new lenient capacity) bs)
        MsgType.publish.code) 0).symm ▸ hastray) s
    refine ⟨⟨0, []⟩, ⟨0, [1]⟩, (hstale []).2, (hstale [1]).2, rfl, fun hsame => ?_⟩
    have hvalue := (Scalar.string.inj (List.cons.inj (List.cons.inj hsame).2).1).2
    exact absurd ((hstale []).1.symm.trans (hvalue.trans (hstale [1]).1)) (by simp)
  · rintro ⟨id, s, hid, hcomplete⟩ T hT m d rfl c hc helem hpass
    have hconst := (follows_begin hT.moves d bs).memberConst hT.moves MsgType.publish.code
    obtain ⟨herr, hit⟩ := reached_some.mp (hconst.memberInt hT.moves m.id c hc)
    have hread := hconst.memberInt_value hT hcomplete.readsFrom hid hc m.id
    have hvalue := memberBytes_value hT m.value herr
    rw [hit, hcomplete.readsFrom.next.string hc helem hpass, Option.getD_some] at hvalue
    rw [← hread, ← hvalue] at hcomplete
    exact hcomplete

theorem reflectRegistration_soundOn_iff (type : MsgType) :
    SoundOn (fun _ m => reflectRegistration type m.1 m.2)
        (fun m => [.int m.1, .string .text m.2]) capacity bs ↔
      LastDecides capacity bs 2
        (∃ id s, IsInt32 id ∧ 0 ∉ s ∧ Complete [.int id, .string .text s] bs) := by
  refine soundOn_iff_of_last ?_ (0, []) ?_ ?_ ?_
  · rintro T hT m d rfl c hc helem
    have hid := ((follows_begin hT d bs).memberConst hT type.code).memberInt hT m.1
    exact hid.last hc helem (memberString_reached hT m.2)
  · exact fun hcomplete => ⟨_, _, lenient_memberInt_isInt32 (by decide) _,
      memberString_no_nul (by simp) _, hcomplete⟩
  · intro hastray
    -- the topic is the one the message had before, whatever that was
    have hstale (s : Str) := lenient_memberString_astray ((lenient_memberInt
      (lenient_memberConst (lenient_begin (CborDeserializer.new lenient capacity) bs)
        type.code) 0).symm ▸ hastray) s
    refine ⟨(0, []), (0, [1]), (hstale []).2, (hstale [1]).2, rfl, fun hsame => ?_⟩
    have htopic := (Scalar.string.inj (List.cons.inj (List.cons.inj hsame).2).1).2
    exact absurd ((hstale []).1.symm.trans (htopic.trans (hstale [1]).1)) (by simp)
  · rintro ⟨id, s, hid, hnul, hcomplete⟩ T hT m d rfl c hc helem hpass
    have hconst := (follows_begin hT.moves d bs).memberConst hT.moves type.code
    obtain ⟨herr, hit⟩ := reached_some.mp (hconst.memberInt hT.moves m.1 c hc)
    have hread := hconst.memberInt_value hT hcomplete.readsFrom hid hc m.1
    have htopic := memberString_value hT m.2 herr
      (hit ▸ hcomplete.readsFrom.next.string hc helem hpass)
    rw [cStr_of_no_nul hnul] at htopic
    rw [← hread, ← htopic] at hcomplete
    exact hcomplete

theorem MsgPublisher.soundOn_iff :
    SoundOn (fun _ => MsgPublisher.reflect) MsgPublisher.fields capacity bs ↔
      LastDecides capacity bs 2
        (∃ id s, IsInt32 id ∧ 0 ∉ s ∧ Complete [.int id, .string .text s] bs) := by
  rw [← reflectRegistration_soundOn_iff .publisher]
  exact ⟨fun h T hT d hd m => h T hT d hd ⟨m.1, m.2⟩, fun h T hT d hd m => h T hT d hd (m.1, m.2)⟩

theorem MsgSubscriber.soundOn_iff :
    SoundOn (fun _ => MsgSubscriber.reflect) MsgSubscriber.fields capacity bs ↔
      LastDecides capacity bs 2
        (∃ id s, IsInt32 id ∧ 0 ∉ s ∧ Complete [.int id, .string .text s] bs) := by
  rw [← reflectRegistration_soundOn_iff .subscriber]
  exact ⟨fun h T hT d hd m => h T hT d hd ⟨m.1, m.2⟩, fun h T hT d hd m => h T hT d hd (m.1, m.2)⟩

/-- **Exactly when `success` means a complete decode.** The members before the last stand at
elements of fixed size in a container, and the last at an element. Either that element
cannot be passed over, so that `success` is false, or the octets are an array with an
integer, the members' types after it, an identifier that is an `int` and a text without a
zero. -/
theorem success_complete_iff (capacity : Nat) (bs : Bytes) :
    (SoundOn (fun _ => MsgConnect.reflect) MsgConnect.fields capacity bs ↔
      LastDecides capacity bs 1 (∃ s, 0 ∉ s ∧ Complete [.string .text s] bs)) ∧
    (SoundOn (fun _ => MsgPublish.reflect) MsgPublish.fields capacity bs ↔
      LastDecides capacity bs 2
        (∃ id s, IsInt32 id ∧ Complete [.int id, .string .bytes s] bs)) ∧
    (SoundOn (fun _ => MsgPublisher.reflect) MsgPublisher.fields capacity bs ↔
      LastDecides capacity bs 2
        (∃ id s, IsInt32 id ∧ 0 ∉ s ∧ Complete [.int id, .string .text s] bs)) ∧
    (SoundOn (fun _ => MsgSubscriber.reflect) MsgSubscriber.fields capacity bs ↔
      LastDecides capacity bs 2
        (∃ id s, IsInt32 id ∧ 0 ∉ s ∧ Complete [.int id, .string .text s] bs)) :=
  ⟨MsgConnect.soundOn_iff, MsgPublish.soundOn_iff, MsgPublisher.soundOn_iff,
    MsgSubscriber.soundOn_iff⟩

/-- `[4, true, h'00']` decodes with success: the `id` of the message stays as it was. -/
theorem success_without_id :
    ¬ SoundOn (fun _ => MsgPublish.reflect) MsgPublish.fields 1024
      [0x83, 0x04, 0xF5, 0x41, 0x00] := by
  intro hsound
  obtain ⟨-, type, len, rest, after, hhead, -, hread⟩ := hsound lenient
    (TinyCbor.reference_documented _) (CborDeserializer.new lenient 1024) rfl ⟨7, []⟩ rfl
  have harray : Cbor.readHead [0x83, 0x04, 0xF5, 0x41, 0x00]
      = some (.array (some 3), [0x04, 0xF5, 0x41, 0x00]) := rfl
  rw [harray] at hhead
  cases hhead
  -- the second element is no scalar
  have hnone : Cbor.readScalars 3 [0x04, 0xF5, 0x41, 0x00] = none := rfl
  exact absurd (hnone.symm.trans hread) (by simp)

end

end ZenohProxy
