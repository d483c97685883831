import ZenohProxy.Codec.Messages
import ZenohProxy.Codec.TinyCbor
import ZenohProxy.Lib.Cbor.Scalars

/-!
# The deserializer

`CborDeserializer` walks over the elements of one container. Every member looks at the type
of the element it stands at, skips the assignment when that is not its own, moves on, and
leaves the answer of the move as the error: the one before is lost.

Each member has lemmas for a position the library answers for: where it moves to
(`memberInt_reached`, …) and what it reads there (`memberInt_value`, …). What it does
elsewhere is the library's business. `Follows` carries the moves along an array.
-/

namespace ZenohProxy

/-- `buffer` is the part of `_buffer` that `_size` covers. -/
structure CborDeserializer (T : TinyCbor) where
  capacity : Nat
  buffer : Bytes
  it : CborValue
  err : CborError
  /-- A pointer that was never set was read and freed. -/
  strayed : Bool
  deriving DecidableEq

namespace CborDeserializer

variable {T : TinyCbor}

/-- What the constructor leaves. -/
def new (T : TinyCbor) (capacity : Nat) : CborDeserializer T :=
  ⟨capacity, [], .invalid, .noError, false⟩

/-- What is longer than the buffer is cut off; the `assert` of this file only logs. -/
def fromBytes (d : CborDeserializer T) (bs : Bytes) : CborDeserializer T :=
  { d with buffer := bs.take d.capacity }

def begin_ (d : CborDeserializer T) : CborDeserializer T :=
  -- the error of the first call is overwritten by that of the second
  let (_, rootIt) := T.parserInit d.buffer
  let (err, it) := T.enterContainer rootIt
  { d with err, it }

def end_ (d : CborDeserializer T) : CborDeserializer T := d

def success (d : CborDeserializer T) : Bool := d.err = .noError

/-- `_err = cbor_value_advance(&_it)`. -/
def advance (d : CborDeserializer T) : CborDeserializer T :=
  let (err, it) := T.advance d.it
  { d with err, it }

/-- `_err = cbor_value_advance_fixed(&_it)`. -/
def advanceFixed (d : CborDeserializer T) : CborDeserializer T :=
  let (err, it) := T.advanceFixed d.it
  { d with err, it }

/-- `member(bytes &)` -/
def memberBytes (t : Bytes) (d : CborDeserializer T) : Bytes × CborDeserializer T :=
  let r : Bytes × CborDeserializer T :=
    -- an element of another type is skipped without a word
    if d.err = .noError ∧ isByteString d.it ∧ T.calculateStringLength d.it = .noError then
      let (err, temp) := T.dupByteString d.it
      (temp.content, { d with err, strayed := d.strayed || !temp.valid })
    else (t, d)
  (r.1, r.2.advance)

/-- `member(string &)`: the text is assigned as a C string. -/
def memberString (t : Str) (d : CborDeserializer T) : Str × CborDeserializer T :=
  let r : Str × CborDeserializer T :=
    if d.err = .noError ∧ isTextString d.it then
      let (err, temp) := T.dupTextString d.it
      (cStr temp.content, { d with err, strayed := d.strayed || !temp.valid })
    else (t, d)
  (r.1, r.2.advance)

/-- `member(int &)` -/
def memberInt (t : Int) (d : CborDeserializer T) : Int × CborDeserializer T :=
  let r : Int × CborDeserializer T :=
    if d.err = .noError ∧ isInteger d.it then
      let (err, v) := T.getInt d.it
      (v, { d with err })
    else (t, d)
  (r.1, r.2.advanceFixed)

/-- `member(uint64_t &)` -/
def memberUint64 (t : Nat) (d : CborDeserializer T) : Nat × CborDeserializer T :=
  let r : Nat × CborDeserializer T :=
    if d.err = .noError ∧ isUnsignedInteger d.it then
      let (err, v) := T.getUint64 d.it
      (v, { d with err })
    else (t, d)
  (r.1, r.2.advanceFixed)

/-- `member(const int &)` reads into a local. -/
def memberConst (_ : Int) (d : CborDeserializer T) : CborDeserializer T :=
  let d : CborDeserializer T :=
    if d.err = .noError ∧ isInteger d.it then { d with err := (T.getInt d.it).1 } else d
  d.advanceFixed

end CborDeserializer

instance (T : TinyCbor) : Reflector (CborDeserializer T) where
  begin_ := CborDeserializer.begin_
  end_ := CborDeserializer.end_
  memberConst := CborDeserializer.memberConst
  memberInt := CborDeserializer.memberInt
  memberString := CborDeserializer.memberString
  memberBytes := CborDeserializer.memberBytes

/-! ## Members at a position the library answers for -/

open Cbor (Cursor)

namespace CborDeserializer

variable {T : TinyCbor}

/-! A deserializer keeps its buffer. -/

section

variable (d : CborDeserializer T)

@[simp] theorem capacity_fromBytes (bs : Bytes) : (d.fromBytes bs).capacity = d.capacity := rfl

@[simp] theorem capacity_begin : d.begin_.capacity = d.capacity := rfl

@[simp] theorem capacity_memberConst (t : Int) : (d.memberConst t).capacity = d.capacity := by
  unfold memberConst
  split <;> rfl

@[simp] theorem capacity_memberInt (t : Int) : (d.memberInt t).2.capacity = d.capacity := by
  unfold memberInt
  split <;> rfl

@[simp] theorem capacity_memberString (t : Str) :
    (d.memberString t).2.capacity = d.capacity := by
  unfold memberString
  split <;> rfl

@[simp] theorem capacity_memberBytes (t : Bytes) :
    (d.memberBytes t).2.capacity = d.capacity := by
  unfold memberBytes
  split <;> rfl

end

/-! Every member leaves the answer of the move over its element. -/

section

variable (d : CborDeserializer T)

theorem memberConst_moves (t : Int) :
    ((d.memberConst t).err, (d.memberConst t).it) = T.advanceFixed d.it := by
  unfold memberConst
  split <;> rfl

theorem memberInt_moves (t : Int) :
    ((d.memberInt t).2.err, (d.memberInt t).2.it) = T.advanceFixed d.it := by
  unfold memberInt
  split <;> rfl

theorem memberBytes_moves (t : Bytes) :
    ((d.memberBytes t).2.err, (d.memberBytes t).2.it) = T.advance d.it := by
  unfold memberBytes
  split <;> rfl

theorem memberString_moves (t : Str) :
    ((d.memberString t).2.err, (d.memberString t).2.it) = T.advance d.it := by
  unfold memberString
  split <;> rfl

end

/-- The deserializer has come to where a move leads, or has the error of one that leads
nowhere. -/
def Reached (d : CborDeserializer T) (move : Option Cursor) : Prop := Meets (d.err, d.it) move

theorem reached_some {d : CborDeserializer T} {c : Cursor} :
    d.Reached (some c) ↔ d.err = .noError ∧ d.it = c := by
  simp [Reached, Meets]

theorem Reached.success {d : CborDeserializer T} {move : Option Cursor}
    (h : d.Reached move) : d.success = move.isSome := by
  cases move with
  | none => simpa [Reached, Meets, CborDeserializer.success] using h
  | some c => simp [CborDeserializer.success, (reached_some.mp h).1]

theorem begin_reached (hT : T.Moves) (d : CborDeserializer T) {root : Cursor}
    (hstart : Cursor.start d.buffer = some root) (hcontainer : root.isContainer) :
    d.begin_.Reached root.enter := by
  have hinit : T.parserInit d.buffer = (.noError, root) := by
    simpa [hstart, Meets] using hT.parserInit d.buffer
  rw [Reached, begin_, hinit]
  exact hT.enterContainer root hcontainer

theorem begin_spec (hT : T.Moves) (d : CborDeserializer T) {c : Cursor}
    (hopened : Cursor.opened d.buffer = some c) : d.begin_.Reached (some c) := by
  obtain ⟨root, hstart, henter⟩ := Option.bind_eq_some_iff.mp hopened
  split at henter
  · rename_i hcontainer
    rw [← henter]
    exact begin_reached hT d hstart hcontainer
  · cases henter

theorem memberConst_spec (hT : T.Moves) (t : Int) {d : CborDeserializer T}
    (hfixed : d.it.isFixed) : (d.memberConst t).Reached d.it.passFixed := by
  rw [Reached, memberConst_moves]
  exact hT.advanceFixed d.it hfixed

theorem memberInt_reached (hT : T.Moves) (t : Int) {d : CborDeserializer T}
    (hfixed : d.it.isFixed) : (d.memberInt t).2.Reached d.it.passFixed := by
  rw [Reached, memberInt_moves]
  exact hT.advanceFixed d.it hfixed

theorem memberBytes_reached (hT : T.Moves) (t : Bytes) {d : CborDeserializer T}
    (helem : d.it.isElem) : (d.memberBytes t).2.Reached (d.it.pass cborMaxRecursions) := by
  rw [Reached, memberBytes_moves]
  exact hT.advance d.it helem

theorem memberString_reached (hT : T.Moves) (t : Str) {d : CborDeserializer T}
    (helem : d.it.isElem) : (d.memberString t).2.Reached (d.it.pass cborMaxRecursions) := by
  rw [Reached, memberString_moves]
  exact hT.advance d.it helem

/-- An integer is truncated to `int`; anything else leaves the member as it was. -/
theorem memberInt_value (hT : T.Documented) (t : Int) {d : CborDeserializer T}
    (herr : d.err = .noError) {extent : Cbor.Extent} {h : Cbor.Head} {rest : Bytes}
    (hit : d.it = .elem extent h rest) :
    (d.memberInt t).1 = (h.int?.map toInt32).getD t := by
  -- the test of the type and the value agree on which heads are integers
  have hinteger : isInteger d.it = h.int?.isSome := by
    rw [hit]
    cases h <;> rfl
  cases hv : h.int? with
  | none => simp [memberInt, hinteger, hv]
  | some v =>
    have hget := hT.getInt extent h rest v hv
    rw [← hit] at hget
    simp [memberInt, herr, hinteger, hv, hget]

theorem memberUint64_value (hT : T.Documented) (t : Nat) {d : CborDeserializer T}
    (herr : d.err = .noError) {extent : Cbor.Extent} {h : Cbor.Head} {rest : Bytes}
    (hit : d.it = .elem extent h rest) : (d.memberUint64 t).1 = h.uint?.getD t := by
  have hunsigned : isUnsignedInteger d.it = h.uint?.isSome := by
    rw [hit]
    cases h <;> rfl
  cases hn : h.uint? with
  | none => simp [memberUint64, hunsigned, hn]
  | some n =>
    have hget : T.getUint64 d.it = (.noError, n) := by
      rw [hit]
      cases h with
      | uint m =>
        cases hn
        exact hT.getUint64 extent n rest
      | _ => cases hn
    simp [memberUint64, herr, hunsigned, hn, hget]

theorem isByteString_of_string? {c : Cursor} {s : Bytes} (hs : c.string? .bytes = some s) :
    isByteString c := by
  cases c with
  | elem extent h rest =>
    cases h with
    | bytes len => rfl
    | text len => simp [Cursor.string?] at hs
    | _ => cases hs
  | _ => cases hs

theorem isTextString_of_string? {c : Cursor} {s : Bytes} (hs : c.string? .text = some s) :
    isTextString c := by
  cases c with
  | elem extent h rest =>
    cases h with
    | text len => rfl
    | bytes len => simp [Cursor.string?] at hs
    | _ => cases hs
  | _ => cases hs

/-- A byte string has a length where it is complete. -/
theorem calculateStringLength_iff (hT : T.Moves) {c : Cursor} (hbytes : isByteString c) :
    T.calculateStringLength c = .noError ↔ (c.string? .bytes).isSome := by
  cases c with
  | elem extent h rest =>
    cases h with
    | bytes len =>
      rw [show (Cursor.elem extent (.bytes len) rest)
          = .elem extent (Cbor.StringKind.head .bytes len) rest from rfl,
        hT.calculateStringLength, Cursor.string?_string, Option.isSome_map]
    | _ => cases hbytes
  | _ => cases hbytes

/-- A byte string is read if it is complete; anything else leaves the member as it was. -/
theorem memberBytes_value (hT : T.Documented) (t : Bytes) {d : CborDeserializer T}
    (herr : d.err = .noError) : (d.memberBytes t).1 = (d.it.string? .bytes).getD t := by
  cases hs : d.it.string? .bytes with
  | none =>
    have hskip : ¬ (isByteString d.it ∧ T.calculateStringLength d.it = .noError) := by
      rintro ⟨hbytes, hlength⟩
      rw [calculateStringLength_iff hT.moves hbytes, hs] at hlength
      cases hlength
    simp [memberBytes, hskip]
  | some s =>
    have hbytes := isByteString_of_string? hs
    have hlength := (calculateStringLength_iff hT.moves hbytes).mpr (by rw [hs]; rfl)
    have hdup := hT.dupByteString d.it hbytes
    rw [hs] at hdup
    simp [memberBytes, herr, hbytes, hlength,
      show T.dupByteString d.it = (.noError, ⟨true, s⟩) from hdup]

theorem memberString_value (hT : T.Documented) (t : Str) {d : CborDeserializer T}
    (herr : d.err = .noError) {s : Bytes} (hs : d.it.string? .text = some s) :
    (d.memberString t).1 = cStr s := by
  have htext := isTextString_of_string? hs
  have hdup := hT.dupTextString d.it htext
  rw [hs] at hdup
  simp [memberString, herr, htext,
    show T.dupTextString d.it = (.noError, ⟨true, s⟩) from hdup]

/-- A string never gets to hold a zero. -/
theorem memberString_no_nul {t : Str} (ht : 0 ∉ t) (d : CborDeserializer T) :
    0 ∉ (d.memberString t).1 := by
  unfold memberString
  split
  · exact cStr_no_nul _
  · exact ht

/-! ## Following the positions -/

/-- The deserializer is where the `n`-th element is, if one gets there. -/
def Follows {T : TinyCbor} (d : CborDeserializer T) (bs : Bytes) (n : Nat) : Prop :=
  ∀ c, Cursor.afterFixed bs n = some c → d.Reached (some c)

section

variable {T : TinyCbor} (hT : T.Moves) {d : CborDeserializer T} {bs : Bytes} {n : Nat}
include hT

theorem follows_begin (d : CborDeserializer T) (bs : Bytes) :
    (d.fromBytes bs).begin_.Follows (bs.take d.capacity) 0 :=
  fun _ hc => begin_spec hT (d.fromBytes bs) hc

omit hT in
theorem Follows.step {d' : CborDeserializer T} (h : d.Follows bs n)
    (hd' : d.it.isFixed → d'.Reached d.it.passFixed) : d'.Follows bs (n + 1) := by
  intro c' hc'
  obtain ⟨c, hc, hstep⟩ := Option.bind_eq_some_iff.mp hc'
  obtain ⟨-, hit⟩ := reached_some.mp (h c hc)
  unfold Cursor.stepFixed at hstep
  split at hstep
  · rename_i hfixed
    rw [← hit] at hfixed hstep
    rw [← hstep]
    exact hd' hfixed
  · cases hstep

omit hT in
/-- A member that moves over any element succeeds where that element can be passed over. -/
theorem Follows.last {d' : CborDeserializer T} {c : Cursor} (h : d.Follows bs n)
    (hc : Cursor.afterFixed bs n = some c) (helem : c.isElem)
    (hd' : d.it.isElem → d'.Reached (d.it.pass cborMaxRecursions)) :
    d'.success = (c.pass cborMaxRecursions).isSome := by
  obtain ⟨-, hit⟩ := reached_some.mp (h c hc)
  rw [hit] at hd'
  exact (hd' helem).success

theorem Follows.memberConst (h : d.Follows bs n) (t : Int) :
    (d.memberConst t).Follows bs (n + 1) :=
  h.step (memberConst_spec hT t)

theorem Follows.memberInt (h : d.Follows bs n) (t : Int) :
    (d.memberInt t).2.Follows bs (n + 1) :=
  h.step (memberInt_reached hT t)

omit hT in
/-- An integer in range is read where it stands. -/
theorem Follows.memberInt_value (hT : T.Documented) (h : d.Follows bs n) {more : Bytes} {v : Int}
    {xs : List Cbor.Scalar} (hreads : Cursor.ReadsFrom bs more n (.int v :: xs))
    (hv : IsInt32 v) {c : Cursor} (hc : Cursor.afterFixed bs (n + 1) = some c) (t : Int) :
    (d.memberInt t).1 = v := by
  obtain ⟨c₀, hc₀, hstep⟩ := Option.bind_eq_some_iff.mp hc
  obtain ⟨herr, hit⟩ := reached_some.mp (h c₀ hc₀)
  obtain ⟨extent, rest, rfl⟩ := hreads.int hc₀ (Cursor.isElem_of_stepFixed hstep)
  rw [CborDeserializer.memberInt_value hT t herr hit]
  simp [toInt32_of_isInt32 hv]

end

end CborDeserializer

end ZenohProxy
