import ZenohProxy.Codec.Complete

/-!
# The calls of the library

`CborDeserializer` enters what the parser has found without a look at the parser's answer,
moves on after every member, and copies a string before it looks whether the copy was made.
`Traced` is a deserializer together with the calls it has made, each with the position it
was made at. It decodes as the deserializer does, and it takes the same `reflect`.

A call is in contract where its position is one the function is documented for. `Within`
follows a decode along an array and carries that along.
-/

namespace ZenohProxy

open Cbor (Cursor)
open CborDeserializer

/-- The calls that move, each with its position, and those that copy a string. -/
inductive ReaderCall where
  | enterContainer (c : CborValue)
  | advanceFixed (c : CborValue)
  | advance (c : CborValue)
  /-- The answer, the output argument of `member` before and after it, and whether it reads
  and frees a pointer that was never set. -/
  | dup (err : CborError) (before after : Bytes) (strayed : Bool)
  deriving DecidableEq

/-- The position is one that the function is documented for. -/
def ReaderCall.InContract : ReaderCall → Prop
  | .enterContainer c => c.isContainer
  | .advanceFixed c => c.isFixed
  | .advance c => c.isElem
  | .dup .. => True

instance (call : ReaderCall) : Decidable call.InContract := by
  cases call <;> unfold ReaderCall.InContract <;> infer_instance

/-- A deserializer and the calls it has made. -/
structure Traced (T : TinyCbor) where
  reader : CborDeserializer T
  calls : List ReaderCall
  deriving DecidableEq

namespace Traced

variable {T : TinyCbor}

/-- Before any call. -/
def of (d : CborDeserializer T) : Traced T := ⟨d, []⟩

def begin_ (t : Traced T) : Traced T :=
  ⟨t.reader.begin_, t.calls ++ [.enterContainer (T.parserInit t.reader.buffer).2]⟩

def end_ (t : Traced T) : Traced T := ⟨t.reader.end_, t.calls⟩

def memberConst (v : Int) (t : Traced T) : Traced T :=
  ⟨t.reader.memberConst v, t.calls ++ [.advanceFixed t.reader.it]⟩

def memberInt (v : Int) (t : Traced T) : Int × Traced T :=
  let (v, reader) := t.reader.memberInt v
  (v, ⟨reader, t.calls ++ [.advanceFixed t.reader.it]⟩)

/-- A copy does not move: the text is passed over from where it was copied. -/
def memberString (s : Str) (t : Traced T) : Str × Traced T :=
  let (after, reader) := t.reader.memberString s
  let dups :=
    if t.reader.err = .noError ∧ isTextString t.reader.it then
      let (err, temp) := T.dupTextString t.reader.it
      [.dup err s after !temp.valid]
    else []
  (after, ⟨reader, t.calls ++ (dups ++ [.advance t.reader.it])⟩)

def memberBytes (s : Bytes) (t : Traced T) : Bytes × Traced T :=
  let (after, reader) := t.reader.memberBytes s
  let dups :=
    if t.reader.err = .noError ∧ isByteString t.reader.it ∧
        T.calculateStringLength t.reader.it = .noError then
      let (err, temp) := T.dupByteString t.reader.it
      [.dup err s after !temp.valid]
    else []
  (after, ⟨reader, t.calls ++ (dups ++ [.advance t.reader.it])⟩)

end Traced

instance (T : TinyCbor) : Reflector (Traced T) where
  begin_ := Traced.begin_
  end_ := Traced.end_
  memberConst := Traced.memberConst
  memberInt := Traced.memberInt
  memberString := Traced.memberString
  memberBytes := Traced.memberBytes

namespace Traced

variable {T : TinyCbor}

theorem calls_memberString (t : Traced T) (s : Str) :
    (t.memberString s).2.calls = t.calls ++
      ((if t.reader.err = .noError ∧ isTextString t.reader.it then
        [.dup (T.dupTextString t.reader.it).1 s (t.reader.memberString s).1
          !(T.dupTextString t.reader.it).2.valid]
      else []) ++ [.advance t.reader.it]) := rfl

theorem calls_memberBytes (t : Traced T) (s : Bytes) :
    (t.memberBytes s).2.calls = t.calls ++
      ((if t.reader.err = .noError ∧ isByteString t.reader.it ∧
          T.calculateStringLength t.reader.it = .noError then
        [.dup (T.dupByteString t.reader.it).1 s (t.reader.memberBytes s).1
          !(T.dupByteString t.reader.it).2.valid]
      else []) ++ [.advance t.reader.it]) := rfl

/-- **A traced decode is the decode**, of any message. -/
theorem reflect_erase (t : Traced T) :
    (∀ m : MsgBase, Prod.map id reader (m.reflect t) = m.reflect t.reader) ∧
    (∀ m : MsgConnect, Prod.map id reader (m.reflect t) = m.reflect t.reader) ∧
    (∀ m : MsgDisconnect, Prod.map id reader (m.reflect t) = m.reflect t.reader) ∧
    (∀ m : MsgPublish, Prod.map id reader (m.reflect t) = m.reflect t.reader) ∧
    (∀ m : MsgPublisher, Prod.map id reader (m.reflect t) = m.reflect t.reader) ∧
    (∀ m : MsgSubscriber, Prod.map id reader (m.reflect t) = m.reflect t.reader) :=
  ⟨fun _ => rfl, fun _ => rfl, fun _ => rfl, fun _ => rfl, fun _ => rfl, fun _ => rfl⟩

/-! ## What the calls depend on -/

/-- The same calls so far, and the same position and error. -/
structure SameAt (t t' : Traced T) : Prop where
  calls : t'.calls = t.calls
  err : t'.reader.err = t.reader.err
  it : t'.reader.it = t.reader.it

section

variable {t t' : Traced T}

theorem sameAt_begin {d d' : CborDeserializer T} (hbuffer : d'.buffer = d.buffer) :
    SameAt (of d).begin_ (of d').begin_ := by
  constructor <;> simp only [begin_, of, CborDeserializer.begin_, hbuffer]

theorem SameAt.memberConst (h : SameAt t t') (v : Int) :
    SameAt (t.memberConst v) (t'.memberConst v) := by
  have hmoves := (memberConst_moves t'.reader v).trans
    ((congrArg T.advanceFixed h.it).trans (memberConst_moves t.reader v).symm)
  exact ⟨by simp only [Traced.memberConst, h.calls, h.it], congrArg Prod.fst hmoves,
    congrArg Prod.snd hmoves⟩

theorem SameAt.memberInt (h : SameAt t t') (v v' : Int) :
    SameAt (t.memberInt v).2 (t'.memberInt v').2 := by
  have hmoves := (memberInt_moves t'.reader v').trans
    ((congrArg T.advanceFixed h.it).trans (memberInt_moves t.reader v).symm)
  exact ⟨by simp only [Traced.memberInt, h.calls, h.it], congrArg Prod.fst hmoves,
    congrArg Prod.snd hmoves⟩

theorem SameAt.memberString_calls (h : SameAt t t') (s : Str) :
    (t'.memberString s).2.calls = (t.memberString s).2.calls := by
  have hread : (t'.reader.memberString s).1 = (t.reader.memberString s).1 := by
    simp only [CborDeserializer.memberString, h.err, h.it]
    split <;> rfl
  rw [calls_memberString, calls_memberString, hread, h.calls, h.err, h.it]

theorem SameAt.memberBytes_calls (h : SameAt t t') (s : Bytes) :
    (t'.memberBytes s).2.calls = (t.memberBytes s).2.calls := by
  have hread : (t'.reader.memberBytes s).1 = (t.reader.memberBytes s).1 := by
    simp only [CborDeserializer.memberBytes, h.err, h.it]
    split <;> rfl
  rw [calls_memberBytes, calls_memberBytes, hread, h.calls, h.err, h.it]

end

/-! ## Calls in contract -/

/-- All calls so far were. -/
def InContract (t : Traced T) : Prop := ∀ call ∈ t.calls, call.InContract

theorem inContract_of (d : CborDeserializer T) : (of d).InContract := by
  intro call hcall
  cases hcall

section

variable {t : Traced T}

theorem inContract_begin :
    t.begin_.InContract ↔ t.InContract ∧ (T.parserInit t.reader.buffer).2.isContainer := by
  simp [InContract, begin_, or_imp, forall_and, ReaderCall.InContract]

theorem inContract_memberConst (v : Int) :
    (t.memberConst v).InContract ↔ t.InContract ∧ t.reader.it.isFixed := by
  simp [InContract, memberConst, or_imp, forall_and, ReaderCall.InContract]

theorem inContract_memberInt (v : Int) :
    (t.memberInt v).2.InContract ↔ t.InContract ∧ t.reader.it.isFixed := by
  simp [InContract, memberInt, or_imp, forall_and, ReaderCall.InContract]

/-- Copying a string asks for nothing that `member` does not look at before. -/
theorem inContract_memberString (s : Str) :
    (t.memberString s).2.InContract ↔ t.InContract ∧ t.reader.it.isElem := by
  rw [InContract, calls_memberString]
  split <;> simp [InContract, or_imp, forall_and, ReaderCall.InContract]

theorem inContract_memberBytes (s : Bytes) :
    (t.memberBytes s).2.InContract ↔ t.InContract ∧ t.reader.it.isElem := by
  rw [InContract, calls_memberBytes]
  split <;> simp [InContract, or_imp, forall_and, ReaderCall.InContract]

end

/-! ## Following a decode -/

/-- The decode is where the `n`-th element is, if one gets there, and then no call on the way
was out of contract. -/
structure Within (t : Traced T) (bs : Bytes) (n : Nat) : Prop where
  follows : t.reader.Follows bs n
  inContract : (Cursor.afterFixed bs n).isSome → t.InContract

section

variable (hT : T.Moves) {t : Traced T} {bs : Bytes} {n : Nat}

theorem within_begin (hT : T.Moves) (d : CborDeserializer T) (bs : Bytes) :
    (of (d.fromBytes bs)).begin_.Within (bs.take d.capacity) 0 where
  follows := follows_begin hT d bs
  inContract hsome := by
    obtain ⟨c, hc⟩ := Option.isSome_iff_exists.mp hsome
    obtain ⟨root, hstart, henter⟩ := Option.bind_eq_some_iff.mp hc
    have hinit := hT.parserInit (bs.take d.capacity)
    rw [hstart] at hinit
    refine inContract_begin.mpr ⟨inContract_of _, ?_⟩
    rw [show (T.parserInit (of (d.fromBytes bs)).reader.buffer) = (.noError, root) from hinit]
    split at henter
    · assumption
    · cases henter

/-- Where an element follows, the one before it is of fixed size. -/
theorem Within.fixed_of_next (h : t.Within bs n) (hsome : (Cursor.afterFixed bs (n + 1)).isSome) :
    t.InContract ∧ t.reader.it.isFixed := by
  obtain ⟨c', hc'⟩ := Option.isSome_iff_exists.mp hsome
  obtain ⟨c, hc, hstep⟩ := Option.bind_eq_some_iff.mp hc'
  obtain ⟨-, hit⟩ := reached_some.mp (h.follows c hc)
  refine ⟨h.inContract (by rw [hc]; rfl), ?_⟩
  unfold Cursor.stepFixed at hstep
  split at hstep
  · rwa [hit]
  · cases hstep

include hT in
theorem Within.memberConst (h : t.Within bs n) (v : Int) :
    (t.memberConst v).Within bs (n + 1) where
  follows := h.follows.memberConst hT v
  inContract hsome := (inContract_memberConst v).mpr (h.fixed_of_next hsome)

include hT in
theorem Within.memberInt (h : t.Within bs n) (v : Int) :
    (t.memberInt v).2.Within bs (n + 1) where
  follows := h.follows.memberInt hT v
  inContract hsome := (inContract_memberInt v).mpr (h.fixed_of_next hsome)

/-- At a position that one gets to, the calls before and the position itself are known. -/
theorem Within.fixed_at (h : t.Within bs n) {c : Cursor}
    (hc : Cursor.afterFixed bs n = some c) (hfixed : c.isFixed) :
    t.InContract ∧ t.reader.it.isFixed := by
  obtain ⟨-, hit⟩ := reached_some.mp (h.follows c hc)
  exact ⟨h.inContract (by rw [hc]; rfl), by rwa [hit]⟩

theorem Within.elem_at (h : t.Within bs n) {c : Cursor}
    (hc : Cursor.afterFixed bs n = some c) (helem : c.isElem) :
    t.InContract ∧ t.reader.it.isElem := by
  obtain ⟨-, hit⟩ := reached_some.mp (h.follows c hc)
  exact ⟨h.inContract (by rw [hc]; rfl), by rwa [hit]⟩

end

end Traced

end ZenohProxy
