import ZenohProxy.Lib.Cbor.Wire

/-!
# A position in a CBOR stream

A pull parser of CBOR keeps a position: it stands at an element whose head it has read, or
past the last element of a container. From there it can enter a container, pass over an
element, or read a scalar. This module gives the positions and the moves as partial
functions: `none` says that the octets are not well-formed there.

An element is passed over in one of two ways. A move over a fixed-size element only looks at
its head; the general one goes through the chunks of a string and the elements of a
container. Both read the head of what follows, so a move also fails when the next head is
malformed.
-/

namespace Cbor

/-- How far the surrounding container goes: a number of elements, the current one included,
or up to a break. In a map a break may not stand where a value is due. -/
inductive Extent where
  | counted (n : Nat)
  | arrayToBreak
  | mapToBreak (valueDue : Bool)
  deriving DecidableEq, Repr

/-- May a break stand where the current element stands? -/
def Extent.breakOk : Extent → Bool
  | .counted _ => false
  | .arrayToBreak => true
  | .mapToBreak valueDue => !valueDue

/-- The extent from the next element on; `none` when the current one was the last. -/
def Extent.next : Extent → Option Extent
  | .counted n => if n ≤ 1 then none else some (.counted (n - 1))
  | .arrayToBreak => some .arrayToBreak
  | .mapToBreak valueDue => some (.mapToBreak (!valueDue))

/-- The extent of an array whose head gives a length. -/
def Extent.ofLen : Option Nat → Extent
  | some n => .counted n
  | none => .arrayToBreak

inductive Cursor where
  | elem (extent : Extent) (h : Head) (rest : Octets)
  | atEnd (rest : Octets)
  | invalid
  deriving DecidableEq, Repr

/-- Reads the head that comes next. -/
def settle (breakOk : Bool) (extent : Extent) (bs : Octets) : Option Cursor :=
  match readHead bs with
  | none => none
  | some (.brk, r) => if breakOk then some (.atEnd r) else none
  | some (h, r) => some (.elem extent h r)

def Head.isTag : Head → Bool
  | .tag _ => true
  | _ => false

/-- An element of which the head says everything. -/
def Head.isFixed : Head → Bool
  | .uint _ | .nint _ | .tag _ | .simple _ | .float _ _ => true
  | _ => false

def Head.isContainer : Head → Bool
  | .array _ | .map _ => true
  | _ => false

/-- The position after an element whose octets end where `rest` begins. A tag is not an
element of its own: the element it belongs to must follow. -/
def past (extent : Extent) (h : Head) (rest : Octets) : Option Cursor :=
  if h.isTag then settle false extent rest
  else
    match extent.next with
    | none => some (.atEnd rest)
    | some extent' => settle extent'.breakOk extent' rest

namespace Cursor

def isElem : Cursor → Bool
  | .elem .. => true
  | _ => false

/-- The head the position stands at. -/
def head? : Cursor → Option Head
  | .elem _ h _ => some h
  | _ => none

def isFixed : Cursor → Bool
  | .elem _ h _ => h.isFixed
  | _ => false

def isContainer : Cursor → Bool
  | .elem _ h _ => h.isContainer
  | _ => false

/-- The first position: the stream is one element. -/
def start (bs : Octets) : Option Cursor := settle false (.counted 1) bs

/-- A container counts its elements in 32 bits, the largest number excluded. -/
def maxCount : Nat := 2 ^ 32 - 1

/-- Goes to the first element of a container. -/
def enter : Cursor → Option Cursor
  | .elem _ (.array (some n)) rest =>
    if n = 0 then some (.atEnd rest)
    else if n < maxCount then settle false (.counted n) rest
    else none
  | .elem _ (.array none) rest => settle true .arrayToBreak rest
  | .elem _ (.map (some n)) rest =>
    if n = 0 then some (.atEnd rest)
    else if 2 * n < maxCount then settle false (.counted (2 * n)) rest
    else none
  | .elem _ (.map none) rest => settle true (.mapToBreak false) rest
  | _ => none

/-- Passes over an element of fixed size. -/
def passFixed : Cursor → Option Cursor
  | .elem extent h rest => past extent h rest
  | _ => none

mutual

/-- Passes over any element, to at most a given depth of containers. The fuel bounds the
moves. -/
def passWithin : Nat → Nat → Cursor → Option Cursor
  | fuel + 1, depth, .elem extent h rest =>
    match h with
    | .bytes len => (readString .bytes len rest).bind fun s => past extent h s.2
    | .text len => (readString .text len rest).bind fun s => past extent h s.2
    -- a container is entered, and left after its last element
    | .array _ | .map _ =>
      match depth with
      | 0 => none
      | depth + 1 =>
        (enter (.elem extent h rest)).bind fun inside =>
          (passAll fuel depth inside).bind fun after => past extent h after
    | _ => past extent h rest
  | _, _, _ => none

/-- Passes over the remaining elements of a container; the result is what follows it. -/
def passAll : Nat → Nat → Cursor → Option Octets
  | _ + 1, _, .atEnd rest => some rest
  | fuel + 1, depth, c => (passWithin fuel depth c).bind (passAll fuel depth)
  | 0, _, _ => none

end

/-- Passes over any element. Each element takes at least one octet, and two units of fuel
are enough for one. -/
def pass (depth : Nat) : Cursor → Option Cursor
  | .elem extent h rest => passWithin (2 * rest.length + 2) depth (.elem extent h rest)
  | _ => none

/-- The first element inside the container that the stream is. -/
def opened (bs : Octets) : Option Cursor :=
  (start bs).bind fun c => if c.isContainer then c.enter else none

/-- Passes over an element if it is of fixed size. -/
def stepFixed (c : Cursor) : Option Cursor := if c.isFixed then c.passFixed else none

/-- The position after a number of elements of fixed size at the start of a container. -/
def afterFixed (bs : Octets) : Nat → Option Cursor
  | 0 => opened bs
  | n + 1 => (afterFixed bs n).bind stepFixed

/-- The position stands at the element these octets start with. -/
def StandsAt (c : Cursor) (bs : Octets) : Prop :=
  ∃ extent h rest, c = .elem extent h rest ∧ readHead bs = some (h, rest)

/-- The content of the string a position stands at. -/
def string? (kind : StringKind) : Cursor → Option Octets
  | .elem _ (.bytes len) rest =>
    if kind = .bytes then (readString .bytes len rest).map Prod.fst else none
  | .elem _ (.text len) rest =>
    if kind = .text then (readString .text len rest).map Prod.fst else none
  | _ => none

end Cursor

/-- The octets are one array and nothing else. -/
def isArray (bs : Octets) : Bool :=
  match Cursor.start bs with
  | some (.elem extent (.array len) rest) =>
    (Cursor.elem extent (.array len) rest).pass bs.length = some (.atEnd [])
  | _ => false

/-! ## The moves, case by case -/

theorem settle_eq_elem {breakOk : Bool} {extent extent' : Extent} {bs r : Octets} {h : Head}
    (hs : settle breakOk extent bs = some (.elem extent' h r)) :
    extent' = extent ∧ readHead bs = some (h, r) ∧ h ≠ .brk := by
  unfold settle at hs
  cases hread : readHead bs with
  | none => simp [hread] at hs
  | some hr =>
    obtain ⟨h', r'⟩ := hr
    cases h' <;> simp only [hread, Option.some.injEq, Cursor.elem.injEq] at hs
    -- a break ends a container, so it never is an element
    case brk => split at hs <;> cases hs
    all_goals
      obtain ⟨rfl, rfl, rfl⟩ := hs
      exact ⟨rfl, rfl, by simp⟩

theorem settle_of_readHead {bs r : Octets} {h : Head} (hread : readHead bs = some (h, r))
    (hbrk : h ≠ .brk) (breakOk : Bool) (extent : Extent) :
    settle breakOk extent bs = some (.elem extent h r) := by
  unfold settle
  rw [hread]
  cases h <;> first | rfl | exact absurd rfl hbrk

theorem settle_break {bs r : Octets} (hread : readHead bs = some (.brk, r)) (extent : Extent) :
    settle true extent bs = some (.atEnd r) := by
  unfold settle
  simp [hread]

theorem past_eq_elem {extent extent' : Extent} {h h' : Head} {rest r : Octets}
    (htag : h.isTag = false) (hp : past extent h rest = some (.elem extent' h' r)) :
    extent.next = some extent' ∧ readHead rest = some (h', r) ∧ h' ≠ .brk := by
  unfold past at hp
  rw [htag] at hp
  simp only [Bool.false_eq_true, if_false] at hp
  cases hn : extent.next with
  | none => simp [hn] at hp
  | some e =>
    rw [hn] at hp
    obtain ⟨rfl, hread, hbrk⟩ := settle_eq_elem hp
    exact ⟨rfl, hread, hbrk⟩

theorem Head.not_isTag_of_int? {h : Head} {v : Int} (hv : h.int? = some v) :
    h.isTag = false := by
  cases h <;> first | rfl | cases hv

theorem Head.isFixed_of_int? {h : Head} {v : Int} (hv : h.int? = some v) :
    h.isFixed = true := by
  cases h <;> first | rfl | cases hv

@[simp] theorem intHead_isFixed (v : Int) : (intHead v).isFixed = true :=
  Head.isFixed_of_int? (int?_intHead v)

@[simp] theorem intHead_isTag (v : Int) : (intHead v).isTag = false :=
  Head.not_isTag_of_int? (int?_intHead v)

theorem intHead_ne_brk (v : Int) : intHead v ≠ .brk := by
  intro h
  have := int?_intHead v
  rw [h] at this
  cases this

/-- The only head of fixed size with an integer value is that of the integer. -/
theorem Head.eq_intHead {h : Head} {v : Int} (hv : h.int? = some v) : h = intHead v := by
  cases h <;> simp only [Head.int?, Option.some.injEq, reduceCtorEq] at hv
  case uint n =>
    subst hv
    simp [intHead]
  case nint n =>
    subst hv
    have hneg : ¬ (0 : Int) ≤ -1 - n := by omega
    simp only [intHead, if_neg hneg]
    congr
    omega

/-- Passing over a string goes on after its content. -/
theorem Cursor.pass_string {kind : StringKind} {extent : Extent} {len : Option Nat}
    {rest : Octets} (depth : Nat) :
    Cursor.pass depth (.elem extent (kind.head len) rest)
      = (readString kind len rest).bind fun s => past extent (kind.head len) s.2 := by
  cases kind <;> rfl

theorem Cursor.string?_string {kind : StringKind} {extent : Extent} {len : Option Nat}
    {rest : Octets} :
    Cursor.string? kind (.elem extent (kind.head len) rest)
      = (readString kind len rest).map Prod.fst := by
  cases kind <;> rfl

/-! ## Where the moves lead -/

/-- The stream is the container that is opened. -/
theorem Cursor.opened_root {bs : Octets} {c : Cursor} (hopened : Cursor.opened bs = some c) :
    ∃ h inner, readHead bs = some (h, inner) ∧ h.isContainer ∧
      (Cursor.elem (.counted 1) h inner).enter = some c := by
  obtain ⟨root, hstart, henter⟩ := Option.bind_eq_some_iff.mp hopened
  split at henter
  · rename_i hcontainer
    cases root with
    | elem extent h inner =>
      obtain ⟨rfl, hread, -⟩ := settle_eq_elem hstart
      exact ⟨h, inner, hread, hcontainer, henter⟩
    | atEnd _ => cases henter
    | invalid => cases henter
  · cases henter

/-- The first element of an array has its head right after that of the array. -/
theorem Cursor.opened_array {bs rest : Octets} {len : Option Nat} {c : Cursor}
    (hhead : readHead bs = some (.array len, rest)) (hopened : Cursor.opened bs = some c)
    (helem : c.isElem) :
    len ≠ some 0 ∧ ∃ h r, c = .elem (.ofLen len) h r ∧ readHead rest = some (h, r) := by
  obtain ⟨h, inner, hroot, -, henter⟩ := Cursor.opened_root hopened
  rw [hhead] at hroot
  cases hroot
  have hsettle (breakOk : Bool) (hs : settle breakOk (.ofLen len) rest = some c) :
      ∃ h r, c = .elem (.ofLen len) h r ∧ readHead rest = some (h, r) := by
    cases c with
    | elem extent h r =>
      obtain ⟨rfl, hread, -⟩ := settle_eq_elem hs
      exact ⟨h, r, rfl, hread⟩
    | atEnd _ => cases helem
    | invalid => cases helem
  -- an array that says it is empty has no first element
  cases len with
  | none => exact ⟨by simp, hsettle true henter⟩
  | some n =>
    simp only [enter] at henter
    split_ifs at henter with h0
    · cases henter
      cases helem
    · exact ⟨by simpa using h0, hsettle false henter⟩

/-- The same for an array of which only a first part is walked over. -/
theorem Cursor.opened_standsAt {bs rest more : Octets} {len : Option Nat} {c : Cursor}
    (hopened : Cursor.opened bs = some c) (helem : c.isElem)
    (hhead : readHead (bs ++ more) = some (.array len, rest)) :
    ∃ inner, rest = inner ++ more ∧ c.StandsAt inner := by
  obtain ⟨h, inner, hroot, -, -⟩ := Cursor.opened_root hopened
  -- the head of the array is read the same way with more octets behind
  have hlong := readHead_append hroot more
  rw [hhead] at hlong
  cases hlong
  obtain ⟨-, h, r, rfl, hread⟩ := Cursor.opened_array hroot hopened helem
  exact ⟨inner, rfl, _, h, r, rfl, hread⟩

/-- Past an element that is no tag, the next one stands right after its head. -/
theorem Cursor.stepFixed_standsAt {extent : Extent} {h : Head} {rest : Octets} {c : Cursor}
    (htag : h.isTag = false) (hstep : (Cursor.elem extent h rest).stepFixed = some c)
    (helem : c.isElem) : c.StandsAt rest := by
  unfold stepFixed at hstep
  split at hstep
  · cases c with
    | elem extent' h' rest' => exact ⟨extent', h', rest', rfl, (past_eq_elem htag hstep).2.1⟩
    | atEnd _ => cases helem
    | invalid => cases helem
  · cases hstep

/-! ## Octets cut off and added -/

theorem settle_ne_none_iff {breakOk : Bool} {extent : Extent} {bs : Octets} :
    settle breakOk extent bs ≠ none ↔
      ∃ h r, readHead bs = some (h, r) ∧ (h = .brk → breakOk = true) := by
  unfold settle
  cases hread : readHead bs with
  | none => simp
  | some hr =>
    obtain ⟨h, r⟩ := hr
    cases h <;> cases breakOk <;> simp

/-- Where a move leads on, it does so with more octets behind. -/
theorem past_append {extent : Extent} {h : Head} {rest : Octets} (htag : h.isTag = false)
    (hpast : past extent h rest ≠ none) (more : Octets) : past extent h (rest ++ more) ≠ none := by
  unfold past at hpast ⊢
  rw [htag] at hpast ⊢
  cases hnext : extent.next with
  | none => simp
  | some extent' =>
    simp only [hnext, Bool.false_eq_true, if_false, settle_ne_none_iff] at hpast ⊢
    obtain ⟨h', r, hread, hbrk⟩ := hpast
    exact ⟨h', r ++ more, readHead_append hread more, hbrk⟩

/-- Where a move leads on, the first nine octets behind are enough for it. -/
theorem past_take {extent : Extent} {h : Head} {rest : Octets} {n : Nat} (hn : 9 ≤ n)
    (htag : h.isTag = false) (hpast : past extent h rest ≠ none) :
    past extent h (rest.take n) ≠ none := by
  unfold past at hpast ⊢
  rw [htag] at hpast ⊢
  cases hnext : extent.next with
  | none => simp
  | some extent' =>
    simp only [hnext, Bool.false_eq_true, if_false, settle_ne_none_iff] at hpast ⊢
    obtain ⟨h', r, hread, hbrk⟩ := hpast
    -- only the next head is looked at
    obtain ⟨m, -, htake⟩ := readHead_take hn hread
    exact ⟨h', r.take m, htake, hbrk⟩

end Cbor
