import Mathlib.Data.List.Induction
import ZenohProxy.Lib.Cbor.Cursor

/-!
# Arrays of integers and strings

The data items this development writes are arrays of indefinite length with integers and
strings in them; what it reads are the first elements of an array of any length. This module
gives the values (`Scalar`), how they are written (`encodeArray`), what it means that octets
start with an array of given values (`StartsArray`), and the positions a reader goes through
when it reads an array that was so written (`settle_encodeScalars`).
-/

namespace Cbor

/-- The values this development reads out of arrays. -/
inductive Scalar where
  | int (v : Int)
  | string (kind : StringKind) (s : Octets)
  deriving DecidableEq, Repr

def readScalar (bs : Octets) : Option (Scalar × Octets) :=
  match readHead bs with
  | some (.uint n, r) => some (.int n, r)
  | some (.nint n, r) => some (.int (-1 - n), r)
  | some (.bytes len, r) => (readString .bytes len r).map fun s => (.string .bytes s.1, s.2)
  | some (.text len, r) => (readString .text len r).map fun s => (.string .text s.1, s.2)
  | _ => none

def readScalars : Nat → Octets → Option (List Scalar × Octets)
  | 0, bs => some ([], bs)
  | n + 1, bs =>
    (readScalar bs).bind fun x => (readScalars n x.2).map fun xs => (x.1 :: xs.1, xs.2)

/-- The octets start with an array whose first elements are the given scalars, each of them
complete. What comes after them is left open. -/
def StartsArray (xs : List Scalar) (bs : Octets) : Prop :=
  ∃ len rest after, readHead bs = some (.array len, rest) ∧
    (∀ n, len = some n → xs.length ≤ n) ∧ readScalars xs.length rest = some (xs, after)

theorem readChunks_mono {kind : StringKind} {fuel fuel' : Nat} {bs s r : Octets}
    (hread : readChunks kind fuel bs = some (s, r)) (hfuel : fuel ≤ fuel') (more : Octets) :
    readChunks kind fuel' (bs ++ more) = some (s, r ++ more) := by
  -- by induction on the fuel, one chunk a step
  induction fuel generalizing fuel' bs s r with
  | zero => cases hread
  | succ fuel ih =>
    obtain ⟨fuel', rfl⟩ : ∃ k, fuel' = k + 1 := ⟨fuel' - 1, by omega⟩
    have hfuel' : fuel ≤ fuel' := by omega
    rw [readChunks] at hread ⊢
    -- one chunk: the condition on its length only gets easier
    have hchunk (want : StringKind) (n : Nat) (tail : Octets)
        (hc : (if kind = want ∧ n ≤ tail.length then
            (readChunks kind fuel (tail.drop n)).map fun t => (tail.take n ++ t.1, t.2)
          else none) = some (s, r)) :
        (if kind = want ∧ n ≤ (tail ++ more).length then
            (readChunks kind fuel' ((tail ++ more).drop n)).map
              fun t => ((tail ++ more).take n ++ t.1, t.2)
          else none) = some (s, r ++ more) := by
      split at hc
      · rename_i hfit
        obtain ⟨t, ht, heq⟩ := Option.map_eq_some_iff.mp hc
        cases heq
        rw [if_pos ⟨hfit.1, by rw [List.length_append]; omega⟩,
          List.drop_append_of_le_length hfit.2, List.take_append_of_le_length hfit.2,
          ih ht hfuel']
        rfl
      · cases hc
    cases hh : readHead bs with
    | none => simp [hh] at hread
    | some hr =>
      obtain ⟨h, tail⟩ := hr
      rw [readHead_append hh more]
      rw [hh] at hread
      cases h with
      | brk =>
        simp only [Option.some.injEq, Prod.mk.injEq] at hread ⊢
        exact ⟨hread.1, by rw [hread.2]⟩
      | bytes len =>
        cases len with
        | none => cases hread
        | some n => exact hchunk .bytes n tail hread
      | text len =>
        cases len with
        | none => cases hread
        | some n => exact hchunk .text n tail hread
      | _ => cases hread

theorem readString_mono {kind : StringKind} {len : Option Nat} {rest s r : Octets}
    (hread : readString kind len rest = some (s, r)) (more : Octets) :
    readString kind len (rest ++ more) = some (s, r ++ more) := by
  cases len with
  | none =>
    exact readChunks_mono hread (by rw [List.length_append]; omega) more
  | some n =>
    simp only [readString] at hread ⊢
    split at hread
    · rename_i hfit
      cases hread
      rw [if_pos (by rw [List.length_append]; omega), List.drop_append_of_le_length hfit,
        List.take_append_of_le_length hfit]
    · cases hread

theorem readScalar_mono {bs r : Octets} {x : Scalar} (hread : readScalar bs = some (x, r))
    (more : Octets) : readScalar (bs ++ more) = some (x, r ++ more) := by
  have hstring (kind : StringKind) (len : Option Nat) (tail : Octets)
      (hs : ((readString kind len tail).map fun s => (Scalar.string kind s.1, s.2))
        = some (x, r)) :
      ((readString kind len (tail ++ more)).map fun s => (Scalar.string kind s.1, s.2))
        = some (x, r ++ more) := by
    obtain ⟨t, ht, heq⟩ := Option.map_eq_some_iff.mp hs
    cases heq
    rw [readString_mono ht more]
    rfl
  unfold readScalar at hread ⊢
  cases hh : readHead bs with
  | none => simp [hh] at hread
  | some hr =>
    obtain ⟨h, tail⟩ := hr
    rw [readHead_append hh more]
    rw [hh] at hread
    cases h with
    | uint n | nint n =>
      simp only [Option.some.injEq, Prod.mk.injEq] at hread ⊢
      exact ⟨hread.1, by rw [hread.2]⟩
    | bytes len => exact hstring .bytes len tail hread
    | text len => exact hstring .text len tail hread
    | _ => cases hread

theorem readScalars_mono {n : Nat} {bs r : Octets} {xs : List Scalar}
    (hread : readScalars n bs = some (xs, r)) (more : Octets) :
    readScalars n (bs ++ more) = some (xs, r ++ more) := by
  induction n generalizing bs xs with
  | zero =>
    simp only [readScalars, Option.some.injEq, Prod.mk.injEq] at hread ⊢
    exact ⟨hread.1, by rw [hread.2]⟩
  | succ n ih =>
    rw [readScalars] at hread ⊢
    obtain ⟨x, hx, hrest⟩ := Option.bind_eq_some_iff.mp hread
    obtain ⟨ys, hys, heq⟩ := Option.map_eq_some_iff.mp hrest
    cases heq
    rw [readScalar_mono hx more, Option.bind_some, ih hys]
    rfl

theorem StartsArray.append {xs : List Scalar} {bs : Octets} (h : StartsArray xs bs)
    (more : Octets) : StartsArray xs (bs ++ more) := by
  obtain ⟨len, rest, after, hhead, hlen, hread⟩ := h
  exact ⟨len, rest ++ more, after ++ more, readHead_append hhead more, hlen,
    readScalars_mono hread more⟩

theorem StartsArray.unique {xs ys : List Scalar} {bs : Octets} (hx : StartsArray xs bs)
    (hy : StartsArray ys bs) (hlen : xs.length = ys.length) : xs = ys := by
  obtain ⟨_, _, _, hhead, -, hxs⟩ := hx
  obtain ⟨_, _, _, hhead', -, hys⟩ := hy
  rw [hhead] at hhead'
  cases hhead'
  rw [hlen, hys] at hxs
  cases hxs
  rfl

theorem readScalar_int {bs r : Octets} {h : Head} {v : Int} (hread : readHead bs = some (h, r))
    (hv : h.int? = some v) : readScalar bs = some (.int v, r) := by
  unfold readScalar
  rw [hread]
  cases h <;> simp only [Head.int?, Option.some.injEq, reduceCtorEq] at hv ⊢
  all_goals rw [hv]

theorem readScalar_string {kind : StringKind} {bs r s after : Octets} {len : Option Nat}
    (hread : readHead bs = some (kind.head len, r))
    (hs : readString kind len r = some (s, after)) :
    readScalar bs = some (.string kind s, after) := by
  unfold readScalar
  rw [hread]
  cases kind <;> simp only [StringKind.head, hs, Option.map_some]

theorem readScalar_int_inv {bs r : Octets} {v : Int} (hread : readScalar bs = some (.int v, r)) :
    ∃ h, readHead bs = some (h, r) ∧ h.int? = some v := by
  unfold readScalar at hread
  cases hh : readHead bs with
  | none => simp [hh] at hread
  | some hr =>
    obtain ⟨h, tail⟩ := hr
    rw [hh] at hread
    cases h <;> simp only [Option.some.injEq, Prod.mk.injEq, Scalar.int.injEq,
      Option.map_eq_some_iff, reduceCtorEq, false_and, and_false, exists_false] at hread
    all_goals
      obtain ⟨rfl, rfl⟩ := hread
      exact ⟨_, rfl, rfl⟩

theorem readScalar_string_inv {kind : StringKind} {bs r s : Octets}
    (hread : readScalar bs = some (.string kind s, r)) :
    ∃ len tail, readHead bs = some (kind.head len, tail) ∧
      readString kind len tail = some (s, r) := by
  unfold readScalar at hread
  cases hh : readHead bs with
  | none => simp [hh] at hread
  | some hr =>
    obtain ⟨h, tail⟩ := hr
    rw [hh] at hread
    cases h <;> simp only [Option.some.injEq, Prod.mk.injEq, Option.map_eq_some_iff,
      reduceCtorEq, false_and] at hread
    all_goals
      obtain ⟨t, ht, heq, rfl⟩ := hread
      cases heq
      exact ⟨_, _, rfl, ht⟩

/-! ## Writing an array -/

def encodeScalar : Scalar → Octets
  | .int v => encodeInt v
  | .string kind s => encodeString kind s

def encodeScalars (xs : List Scalar) : Octets := xs.flatMap encodeScalar

/-- An array of indefinite length that is not closed yet. -/
def openArray (xs : List Scalar) : Octets := 0x9F :: encodeScalars xs

/-- An array of indefinite length. -/
def encodeArray (xs : List Scalar) : Octets := 0x9F :: (encodeScalars xs ++ [0xFF])

theorem openArray_append (xs : List Scalar) (x : Scalar) :
    openArray xs ++ encodeScalar x = openArray (xs ++ [x]) := by
  simp [openArray, encodeScalars]

/-- What a head has room for. -/
def Scalar.Fits : Scalar → Prop
  | .int v => -2 ^ 64 ≤ v ∧ v < 2 ^ 64
  | .string _ s => s.length < 2 ^ 64

def Scalar.head : Scalar → Head
  | .int v => intHead v
  | .string kind s => kind.head (some s.length)

/-- What follows the head. -/
def Scalar.body : Scalar → Octets
  | .int _ => []
  | .string _ s => s

theorem Scalar.head_isTag (x : Scalar) : x.head.isTag = false := by
  cases x with
  | int v => exact intHead_isTag v
  | string kind s => cases kind <;> rfl

theorem Scalar.head_ne_brk (x : Scalar) : x.head ≠ .brk := by
  cases x with
  | int v => exact intHead_ne_brk v
  | string kind s => cases kind <;> simp [Scalar.head, StringKind.head]

theorem readHead_encodeScalar {x : Scalar} (hx : x.Fits) (rest : Octets) :
    readHead (encodeScalar x ++ rest) = some (x.head, x.body ++ rest) := by
  cases x with
  | int v => exact readHead_encodeInt hx.1 hx.2 rest
  | string kind s => exact readHead_encodeString hx rest

theorem readHead_indefinite (rest : Octets) :
    readHead (0x9F :: rest) = some (.array none, rest) := rfl

theorem readHead_break (rest : Octets) : readHead (0xFF :: rest) = some (.brk, rest) := rfl

theorem encodeScalars_cons (x : Scalar) (xs : List Scalar) :
    encodeScalars (x :: xs) = encodeScalar x ++ encodeScalars xs := rfl

theorem length_encodeArray (xs : List Scalar) :
    (encodeArray xs).length = (encodeScalars xs).length + 2 := by
  simp [encodeArray]

/-- **A written array is read back**, whatever follows it. -/
theorem readScalars_encodeScalars {xs : List Scalar} (hxs : ∀ x ∈ xs, x.Fits)
    (rest : Octets) : readScalars xs.length (encodeScalars xs ++ rest) = some (xs, rest) := by
  induction xs with
  | nil => rfl
  | cons x xs ih =>
    have hx : x.Fits := hxs x (by simp)
    have ih := ih fun y hy => hxs y (by simp [hy])
    -- the first value is read by its head; the others follow by the hypothesis
    have hone : readScalar (encodeScalar x ++ (encodeScalars xs ++ rest))
        = some (x, encodeScalars xs ++ rest) := by
      have hread := readHead_encodeScalar hx (encodeScalars xs ++ rest)
      cases x with
      | int v => exact readScalar_int hread (int?_intHead v)
      | string kind s => exact readScalar_string hread (readString_append kind s _)
    rw [List.length_cons, readScalars, encodeScalars_cons, List.append_assoc, hone,
      Option.bind_some, ih]
    rfl

theorem StartsArray.encodeArray {xs : List Scalar} (hxs : ∀ x ∈ xs, x.Fits) :
    StartsArray xs (encodeArray xs) :=
  ⟨none, _, _, readHead_indefinite _, by simp, readScalars_encodeScalars hxs [0xFF]⟩

/-! ## The positions in a written array -/

/-- The position at the first of the scalars that are left in a written array. -/
def Cursor.atScalars : List Scalar → Octets → Cursor
  | [], rest => .atEnd rest
  | x :: xs, rest =>
    .elem .arrayToBreak x.head (x.body ++ (encodeScalars xs ++ 0xFF :: rest))

theorem settle_encodeScalars {xs : List Scalar} (hxs : ∀ x ∈ xs, x.Fits) (rest : Octets) :
    settle true .arrayToBreak (encodeScalars xs ++ 0xFF :: rest)
      = some (Cursor.atScalars xs rest) := by
  cases xs with
  | nil => exact settle_break (readHead_break rest) _
  | cons x xs =>
    have hread := readHead_encodeScalar (hxs x (by simp)) (encodeScalars xs ++ 0xFF :: rest)
    rw [encodeScalars_cons, List.append_assoc, settle_of_readHead hread x.head_ne_brk]
    rfl

theorem start_encodeArray (xs : List Scalar) :
    Cursor.start (encodeArray xs)
      = some (.elem (.counted 1) (.array none) (encodeScalars xs ++ [0xFF])) :=
  settle_of_readHead (readHead_indefinite _) (by simp) _ _

/-- Passing over one scalar of a written array leads to the next. -/
theorem past_encodeScalars {xs : List Scalar} (hxs : ∀ x ∈ xs, x.Fits) (x : Scalar)
    (rest : Octets) :
    past .arrayToBreak x.head (encodeScalars xs ++ 0xFF :: rest)
      = some (Cursor.atScalars xs rest) := by
  rw [past, x.head_isTag]
  exact settle_encodeScalars hxs rest

theorem opened_encodeArray {xs : List Scalar} (hxs : ∀ x ∈ xs, x.Fits) :
    Cursor.opened (encodeArray xs) = some (Cursor.atScalars xs []) := by
  rw [Cursor.opened, start_encodeArray, Option.bind_some]
  exact settle_encodeScalars hxs []

namespace Cursor

variable {xs : List Scalar} {rest : Octets}

@[simp] theorem atScalars_isElem (x : Scalar) : (atScalars (x :: xs) rest).isElem = true := rfl

@[simp] theorem atScalars_isFixed (v : Int) :
    (atScalars (.int v :: xs) rest).isFixed = true := intHead_isFixed v

theorem atScalars_passFixed (hxs : ∀ x ∈ xs, x.Fits) (v : Int) :
    (atScalars (.int v :: xs) rest).passFixed = some (atScalars xs rest) :=
  past_encodeScalars hxs (.int v) rest

theorem atScalars_pass_string (hxs : ∀ x ∈ xs, x.Fits) (depth : Nat) (kind : StringKind)
    (s : Octets) :
    (atScalars (.string kind s :: xs) rest).pass depth = some (atScalars xs rest) := by
  rw [atScalars, Scalar.head, Scalar.body, pass_string, readString_append, Option.bind_some]
  exact past_encodeScalars hxs (.string kind s) rest

theorem atScalars_string? (kind : StringKind) (s : Octets) :
    (atScalars (.string kind s :: xs) rest).string? kind = some s := by
  rw [atScalars, Scalar.head, Scalar.body, string?_string, readString_append]
  rfl

end Cursor

/-! ## A written array that is cut off -/

/-- Past the integers of an array that is not closed stands what follows them. -/
theorem afterFixed_openArray {vs : List Int} (hvs : ∀ v ∈ vs, (Scalar.int v).Fits)
    (tail : Octets) :
    Cursor.afterFixed (openArray (vs.map .int) ++ tail) vs.length
      = settle true .arrayToBreak tail := by
  -- by induction from the end: the last integer is one more step over its head
  induction vs using List.reverseRecOn generalizing tail with
  | nil =>
    rw [List.map_nil, List.length_nil, Cursor.afterFixed, Cursor.opened, Cursor.start,
      show openArray [] ++ tail = 0x9F :: tail from rfl,
      settle_of_readHead (readHead_indefinite tail) (by simp), Option.bind_some]
    rfl
  | append_singleton vs v ih =>
    have hread := readHead_encodeScalar (hvs v (by simp)) tail
    rw [List.map_append, List.map_singleton, ← openArray_append, List.append_assoc,
      List.length_append, List.length_singleton, Cursor.afterFixed,
      ih (fun w hw => hvs w (by simp [hw])), settle_of_readHead hread (intHead_ne_brk v),
      Option.bind_some, show Cursor.elem .arrayToBreak (Scalar.int v).head
        (Scalar.body (.int v) ++ tail) = .elem .arrayToBreak (intHead v) tail from rfl,
      Cursor.stepFixed, Cursor.isFixed, if_pos (intHead_isFixed v), Cursor.passFixed, past,
      intHead_isTag]
    rfl

/-- A string is not passed over in an array that ends with it or before its end. -/
theorem Cursor.pass_cut {kind : StringKind} {n : Nat} {rest : Octets} (hcut : rest.length ≤ n)
    (depth : Nat) :
    (Cursor.elem .arrayToBreak (kind.head (some n)) rest).pass depth = none := by
  rw [pass_string, readString]
  split
  · rename_i hfull
    -- the content is complete, but no head follows it
    rw [Option.bind_some, List.drop_of_length_le hcut]
    cases kind <;> rfl
  · rfl

/-! ## Reading on from a position -/

namespace Cursor

variable {c : Cursor} {bs more after : Octets} {xs : List Scalar} {n : Nat}

/-- Where an integer is read, the position has its head, and the next element is where
reading goes on. -/
theorem StandsAt.int {v : Int} (hc : c.StandsAt bs)
    (hread : readScalars (n + 1) (bs ++ more) = some (.int v :: xs, after)) :
    ∃ extent rest, c = .elem extent (intHead v) rest ∧
      readScalars n (rest ++ more) = some (xs, after) := by
  obtain ⟨extent, h, rest, rfl, hhead⟩ := hc
  rw [readScalars] at hread
  obtain ⟨⟨x, r⟩, hx, hrest⟩ := Option.bind_eq_some_iff.mp hread
  obtain ⟨⟨ys, r'⟩, hys, heq⟩ := Option.map_eq_some_iff.mp hrest
  cases heq
  -- the head at the position is the one the integer was read from
  obtain ⟨h', hhead', hv⟩ := readScalar_int_inv hx
  rw [readHead_append hhead more] at hhead'
  cases hhead'
  rw [Head.eq_intHead hv]
  exact ⟨extent, rest, rfl, hys⟩

/-- Where a string is read that can be passed over, the position has its content. -/
theorem StandsAt.string {kind : StringKind} {s : Octets} {depth : Nat} (hc : c.StandsAt bs)
    (hread : readScalars (n + 1) (bs ++ more) = some (.string kind s :: xs, after))
    (hpass : c.pass depth ≠ none) : c.string? kind = some s := by
  obtain ⟨extent, h, rest, rfl, hhead⟩ := hc
  rw [readScalars] at hread
  obtain ⟨⟨x, r⟩, hx, hrest⟩ := Option.bind_eq_some_iff.mp hread
  obtain ⟨⟨ys, r'⟩, -, heq⟩ := Option.map_eq_some_iff.mp hrest
  cases heq
  obtain ⟨len, tail, hhead', hs⟩ := readScalar_string_inv hx
  rw [readHead_append hhead more] at hhead'
  cases hhead'
  rw [string?_string]
  rw [pass_string] at hpass
  cases hshort : readString kind len rest with
  | none => simp [hshort] at hpass
  | some t =>
    -- the string ends before the octets that were appended
    have hlong := readString_mono hshort more
    rw [hs] at hlong
    cases hlong
    rfl

theorem isElem_of_stepFixed {c' : Cursor} (hstep : c.stepFixed = some c') : c.isElem := by
  cases c <;> first | rfl | cases hstep

/-- Where the first part of some octets has its `n`-th element, the octets have the values
`xs` from there on. -/
def ReadsFrom (bs more : Octets) (n : Nat) (xs : List Scalar) : Prop :=
  ∀ c, afterFixed bs n = some c → c.isElem →
    ∃ inner after, c.StandsAt inner ∧ readScalars xs.length (inner ++ more) = some (xs, after)

theorem readsFrom_start (hstarts : StartsArray xs (bs ++ more)) : ReadsFrom bs more 0 xs := by
  intro c hc helem
  obtain ⟨len, rest, after, hhead, -, hread⟩ := hstarts
  obtain ⟨inner, rfl, hstands⟩ := opened_standsAt hc helem hhead
  exact ⟨inner, after, hstands, hread⟩

theorem ReadsFrom.int {v : Int} (h : ReadsFrom bs more n (.int v :: xs))
    (hc : afterFixed bs n = some c) (helem : c.isElem) :
    ∃ extent rest, c = .elem extent (intHead v) rest := by
  obtain ⟨inner, after, hstands, hread⟩ := h c hc helem
  obtain ⟨extent, rest, rfl, -⟩ := hstands.int hread
  exact ⟨extent, rest, rfl⟩

theorem ReadsFrom.next {v : Int} (h : ReadsFrom bs more n (.int v :: xs)) :
    ReadsFrom bs more (n + 1) xs := by
  intro c' hc' helem'
  obtain ⟨c, hc, hstep⟩ := Option.bind_eq_some_iff.mp hc'
  obtain ⟨inner, after, hstands, hread⟩ := h c hc (isElem_of_stepFixed hstep)
  obtain ⟨extent, rest, rfl, hrest⟩ := hstands.int hread
  exact ⟨rest, after, stepFixed_standsAt (intHead_isTag v) hstep helem', hrest⟩

theorem ReadsFrom.string {kind : StringKind} {s : Octets} {depth : Nat}
    (h : ReadsFrom bs more n (.string kind s :: xs)) (hc : afterFixed bs n = some c)
    (helem : c.isElem) (hpass : c.pass depth ≠ none) : c.string? kind = some s := by
  obtain ⟨inner, after, hstands, hread⟩ := h c hc helem
  exact hstands.string hread hpass

end Cursor

/-! ## The first element -/

/-- The octets start with an array whose first element is the integer `k`, and the array
ends there or goes on with the head of another element. -/
def StartsWithInt (k : Int) (bs : Octets) : Prop :=
  ∃ len rest after, readHead bs = some (.array len, rest) ∧ len ≠ some 0 ∧
    readScalar rest = some (.int k, after) ∧ past (.ofLen len) (intHead k) after ≠ none

variable {k : Int} {bs : Octets} {n : Nat} {c : Cursor}

theorem readHead_of_readScalar_int {rest after : Octets}
    (hread : readScalar rest = some (.int k, after)) :
    readHead rest = some (intHead k, after) := by
  obtain ⟨h, hhead, hk⟩ := readScalar_int_inv hread
  rwa [Head.eq_intHead hk] at hhead

/-- The first elements of an array are reached within 27 octets, three heads. -/
theorem StartsWithInt.opened (h : StartsWithInt k bs) (hn : 27 ≤ n)
    (hopened : Cursor.opened (bs.take n) = some c) :
    ∃ extent r, c = .elem extent (intHead k) r ∧ c.passFixed ≠ none := by
  obtain ⟨len, rest, after, hhead, hlen, hread, hpast⟩ := h
  obtain ⟨m, hm, htake⟩ := readHead_take (n := n) (by omega) hhead
  obtain ⟨m', hm', htake'⟩ := readHead_take (n := m) (by omega)
    (readHead_of_readScalar_int hread)
  -- the array is not empty, so what is opened is an element
  have helem : c.isElem := by
    obtain ⟨h, inner, hroot, -, henter⟩ := Cursor.opened_root hopened
    rw [htake] at hroot
    cases hroot
    have hsettle (breakOk : Bool) (extent : Extent)
        (hs : settle breakOk extent (rest.take m) = some c) : c.isElem := by
      rw [settle_of_readHead htake' (intHead_ne_brk k)] at hs
      cases hs
      rfl
    cases len with
    | none => exact hsettle true _ henter
    | some n =>
      simp only [Cursor.enter] at henter
      split_ifs at henter with h0
      · exact absurd (congrArg some h0) hlen
      · exact hsettle false _ henter
  obtain ⟨-, h, r, rfl, hfirst⟩ := Cursor.opened_array htake hopened helem
  rw [htake'] at hfirst
  cases hfirst
  exact ⟨_, _, rfl, past_take (by omega) (intHead_isTag k) hpast⟩

/-- The head of a well-formed array says how far it goes, so it can be entered. -/
theorem enter_of_isArray (h : isArray bs) :
    ∃ len rest, readHead bs = some (.array len, rest) ∧
      (Cursor.elem (.counted 1) (.array len) rest).enter.isSome := by
  unfold isArray at h
  split at h
  · rename_i extent len rest hstart
    obtain ⟨rfl, hread, -⟩ := settle_eq_elem hstart
    refine ⟨len, rest, hread, ?_⟩
    have hpass := of_decide_eq_true h
    rw [Cursor.pass] at hpass
    -- passing over an array starts with entering it
    cases bs with
    | nil => cases hread
    | cons b bs =>
      rw [List.length_cons, Cursor.passWithin] at hpass
      obtain ⟨inside, henter, -⟩ := Option.bind_eq_some_iff.mp hpass
      rw [henter]
      rfl
  · cases h

/-- A well-formed array that starts with an integer opens at it, also when all but its first
27 octets are cut off. -/
theorem opened_of_isArray (harray : isArray bs) (hstarts : StartsArray [.int k] bs)
    (hn : 27 ≤ n) :
    ∃ extent r, Cursor.opened (bs.take n) = some (.elem extent (intHead k) r) := by
  obtain ⟨len, rest, hhead, henter⟩ := enter_of_isArray harray
  obtain ⟨len', rest', after, hhead', hlen, hread⟩ := hstarts
  rw [hhead] at hhead'
  cases hhead'
  obtain ⟨⟨x, after'⟩, hx, hxs⟩ := Option.bind_eq_some_iff.mp hread
  obtain ⟨ys, -, hcons⟩ := Option.map_eq_some_iff.mp hxs
  obtain rfl : x = .int k := by
    rw [Prod.mk.injEq, List.cons.injEq] at hcons
    exact hcons.1.1
  -- both heads are read from what is left of the octets
  obtain ⟨m, hm, htake⟩ := readHead_take (n := n) (by omega) hhead
  obtain ⟨m', -, htake'⟩ := readHead_take (n := m) (by omega) (readHead_of_readScalar_int hx)
  have hsettle (breakOk : Bool) (extent : Extent) :
      settle breakOk extent (rest.take m) = some (.elem extent (intHead k) (after'.take m')) :=
    settle_of_readHead htake' (intHead_ne_brk k) breakOk extent
  refine ⟨.ofLen len, after'.take m', ?_⟩
  rw [Cursor.opened, Cursor.start, settle_of_readHead htake (by simp)]
  show (Cursor.elem (.counted 1) (.array len) (rest.take m)).enter = _
  cases len with
  | none => exact hsettle true .arrayToBreak
  | some count =>
    have hcount : count ≠ 0 := by
      have := hlen count rfl
      simp only [List.length_cons, List.length_nil] at this
      omega
    simp only [Cursor.enter, if_neg hcount] at henter ⊢
    split at henter
    · rename_i hmax
      rw [if_pos hmax]
      exact hsettle false (.counted count)
    · cases henter

theorem startsWithInt_of_opened {len : Option Nat} {rest : Octets}
    (hhead : readHead bs = some (.array len, rest))
    (hopened : Cursor.opened (bs.take n) = some c) (hk : c.head?.bind Head.int? = some k)
    (hpass : c.passFixed ≠ none) : StartsWithInt k bs := by
  have helem : c.isElem := by
    cases c <;> first | rfl | cases hk
  obtain ⟨h, inner, hroot, -, -⟩ := Cursor.opened_root hopened
  -- the array has the same head whether or not its tail is cut off
  have hlong := readHead_append hroot (bs.drop n)
  rw [List.take_append_drop, hhead] at hlong
  cases hlong
  obtain ⟨hlen, h, r, rfl, hfirst⟩ := Cursor.opened_array hroot hopened helem
  obtain rfl := Head.eq_intHead (show h.int? = some k from hk)
  refine ⟨len, _, r ++ bs.drop n, hhead, hlen, ?_, past_append (intHead_isTag k) hpass _⟩
  exact readScalar_int (readHead_append hfirst _) (int?_intHead k)

end Cbor
