import ZenohProxy.Lib.Cbor.Cursor

/-!
# Data items

A data item of CBOR is a tree. `Item.Reads` says that octets start with a given item, in any of
the ways an item can be written: with an argument of any width, and as a container of definite
or of indefinite length. `Cursor.StandsBefore` says that a position stands before a given list of
items, the last of its container, and the moves of a position are lemmas about it:
`past_standsBefore` over an element, `enter_standsBefore` into a container.
-/

namespace Cbor

inductive ContainerKind where
  | array
  | map
  deriving DecidableEq, Repr

def ContainerKind.head : ContainerKind → Option Nat → Head
  | .array => .array
  | .map => .map

/-- How many items an entry of the container has. -/
def ContainerKind.arity : ContainerKind → Nat
  | .array => 1
  | .map => 2

inductive FloatWidth where
  | half
  | single
  | double
  deriving DecidableEq, Repr

def FloatWidth.octets : FloatWidth → Nat
  | .half => 2
  | .single => 4
  | .double => 8

/-- A data item. The keys and values of a map are items of one list, in the order they are
written. -/
inductive Item where
  | int (v : Int)
  | string (kind : StringKind) (content : Octets)
  | container (kind : ContainerKind) (definite : Bool) (items : List Item)
  | tag (number : Nat) (content : Item)
  | simple (n : Nat)
  | float (width : FloatWidth) (bits : Nat)

def Item.isTag : Item → Bool
  | .tag .. => true
  | _ => false

theorem Item.isTag_iff {i : Item} : i.isTag = true ↔ ∃ number content, i = .tag number content := by
  cases i <;> simp [Item.isTag]

mutual

/-- Behind the head `h`, what is left of the item ends where `rest` begins. -/
def Item.ReadsAfter (h : Head) (r rest : Octets) : Item → Prop
  | .int v => h = intHead v ∧ rest = r
  | .string kind content =>
    ∃ len, h = kind.head len ∧ readString kind len r = some (content, rest)
  | .container kind true items =>
    ∃ n, h = kind.head (some n) ∧ items.length = kind.arity * n ∧ ReadsAll r rest items
  | .container kind false items =>
    h = kind.head none ∧ kind.arity ∣ items.length ∧
      ∃ r', ReadsAll r r' items ∧ readHead r' = some (.brk, rest)
  | .tag number content =>
    h = .tag number ∧ ∃ h' r', readHead r = some (h', r') ∧ content.ReadsAfter h' r' rest
  | .simple n => h = .simple n ∧ rest = r
  | .float width bits => h = .float width.octets bits ∧ rest = r

/-- The octets start with the items, one after the other. -/
def ReadsAll (bs rest : Octets) : List Item → Prop
  | [] => rest = bs
  | i :: is =>
    ∃ h r r', readHead bs = some (h, r) ∧ i.ReadsAfter h r r' ∧ ReadsAll r' rest is

end

/-- The octets start with the item. -/
def Item.Reads (i : Item) (bs rest : Octets) : Prop :=
  ∃ h r, readHead bs = some (h, r) ∧ i.ReadsAfter h r rest

mutual

/-- No container of definite length has more items than a position can count. -/
def Item.Fits : Item → Prop
  | .container _ definite items =>
    (definite = true → items.length < Cursor.maxCount) ∧ AllFit items
  | .tag _ content => content.Fits
  | _ => True

def AllFit : List Item → Prop
  | [] => True
  | i :: is => i.Fits ∧ AllFit is

end

/-- `k` elements from here on the surrounding container is at its end: they end where `r`
begins, and the container where `after` does. -/
def Extent.Closes (k : Nat) (r after : Octets) : Extent → Prop
  | .counted n => n = k ∧ after = r
  | .arrayToBreak => readHead r = some (.brk, after)
  | .mapToBreak valueDue => k % 2 = valueDue.toNat ∧ readHead r = some (.brk, after)

/-- The position stands before the items, which are the last of the surrounding container. -/
def Cursor.StandsBefore (c : Cursor) (items : List Item) (after : Octets) : Prop :=
  match c, items with
  | .atEnd rest, [] => rest = after
  | .elem extent h r, i :: is =>
    ∃ r' r'', i.ReadsAfter h r r' ∧ ReadsAll r' r'' is ∧ extent.Closes (is.length + 1) r'' after
  | _, _ => False

/-- Behind the head of a container, whatever its length. -/
theorem Item.ReadsAfter.exists_len {kind : ContainerKind} {definite : Bool} {items : List Item}
    {h : Head} {r rest : Octets}
    (hread : (Item.container kind definite items).ReadsAfter h r rest) :
    ∃ len, h = kind.head len := by
  cases definite with
  | true =>
    obtain ⟨n, hhead, -⟩ := hread
    exact ⟨some n, hhead⟩
  | false => exact ⟨none, hread.1⟩

theorem Item.ReadsAfter.isContainer {kind : ContainerKind} {definite : Bool} {items : List Item}
    {h : Head} {r rest : Octets}
    (hread : (Item.container kind definite items).ReadsAfter h r rest) :
    h.isContainer = true := by
  obtain ⟨len, rfl⟩ := hread.exists_len
  cases kind <;> rfl

theorem Item.ReadsAfter.ne_brk {i : Item} {h : Head} {r rest : Octets}
    (hread : i.ReadsAfter h r rest) : h ≠ .brk := by
  cases i with
  | int v => exact hread.1 ▸ intHead_ne_brk v
  | string kind content =>
    obtain ⟨len, rfl, -⟩ := hread
    cases kind <;> simp [StringKind.head]
  | container kind definite items =>
    obtain ⟨len, rfl⟩ := hread.exists_len
    cases kind <;> simp [ContainerKind.head]
  | tag number content =>
    obtain ⟨rfl, -⟩ := hread
    simp
  | simple n =>
    obtain ⟨rfl, -⟩ := hread
    simp
  | float width bits =>
    obtain ⟨rfl, -⟩ := hread
    simp

/-- The head of a tag is that of a tagged item. -/
theorem Item.ReadsAfter.isTag_eq {i : Item} {h : Head} {r rest : Octets}
    (hread : i.ReadsAfter h r rest) : h.isTag = i.isTag := by
  cases i with
  | int v =>
    rw [hread.1, intHead_isTag]
    rfl
  | string kind content =>
    obtain ⟨len, rfl, -⟩ := hread
    cases kind <;> rfl
  | container kind definite items =>
    obtain ⟨len, rfl⟩ := hread.exists_len
    cases kind <;> rfl
  | tag number content =>
    obtain ⟨rfl, -⟩ := hread
    rfl
  | simple n =>
    obtain ⟨rfl, -⟩ := hread
    rfl
  | float width bits =>
    obtain ⟨rfl, -⟩ := hread
    rfl

/-- The head of an integer is that of an integer item. -/
theorem Item.ReadsAfter.eq_int {i : Item} {h : Head} {v : Int} {r rest : Octets}
    (hread : i.ReadsAfter h r rest) (hv : h.int? = some v) : i = .int v := by
  cases i with
  | int w =>
    obtain ⟨rfl, -⟩ := hread
    rw [int?_intHead, Option.some.injEq] at hv
    rw [hv]
  | string kind content =>
    obtain ⟨len, rfl, -⟩ := hread
    cases kind <;> cases hv
  | container kind definite items =>
    obtain ⟨len, rfl⟩ := hread.exists_len
    cases kind <;> cases hv
  | tag number content =>
    obtain ⟨rfl, -⟩ := hread
    cases hv
  | simple n =>
    obtain ⟨rfl, -⟩ := hread
    cases hv
  | float width bits =>
    obtain ⟨rfl, -⟩ := hread
    cases hv

theorem Cursor.StandsBefore.exists_elem {c : Cursor} {i : Item} {is : List Item} {after : Octets}
    (hc : c.StandsBefore (i :: is) after) :
    ∃ extent h r r' r'', c = .elem extent h r ∧ i.ReadsAfter h r r' ∧ ReadsAll r' r'' is ∧
      extent.Closes (is.length + 1) r'' after := by
  cases c with
  | elem extent h r =>
    obtain ⟨r', r'', hi, his, hcloses⟩ := hc
    exact ⟨extent, h, r, r', r'', rfl, hi, his, hcloses⟩
  | atEnd rest => exact hc.elim
  | invalid => exact hc.elim

theorem Cursor.StandsBefore.eq_atEnd {c : Cursor} {after : Octets}
    (hc : c.StandsBefore [] after) : c = .atEnd after := by
  cases c with
  | atEnd rest => exact congrArg Cursor.atEnd hc
  | elem extent h r => exact hc.elim
  | invalid => exact hc.elim

/-! ## The moves of a position -/

/-- What is read next is the first of the items, or the break behind the last. -/
theorem settle_standsBefore (extent : Extent) {items : List Item} {r r' after : Octets}
    (hitems : ReadsAll r r' items) (hcloses : extent.Closes items.length r' after)
    (hbreak : items = [] → extent.breakOk = true) :
    ∃ c, settle extent.breakOk extent r = some c ∧ c.StandsBefore items after := by
  cases items with
  | cons i is =>
    obtain ⟨h, r₁, r₂, hread, hi, his⟩ := hitems
    exact ⟨_, settle_of_readHead hread hi.ne_brk _ _, r₂, r', hi, his, hcloses⟩
  | nil =>
    have hr : r' = r := hitems
    have hok := hbreak rfl
    have hread : readHead r = some (.brk, after) := by
      cases extent with
      | counted n => cases hok
      | arrayToBreak => exact hr ▸ hcloses
      | mapToBreak valueDue => exact hr ▸ hcloses.2
    exact ⟨.atEnd after, hok ▸ settle_break hread extent, rfl⟩

theorem past_standsBefore {extent : Extent} {h : Head} {is : List Item} {r r' after : Octets}
    (htag : h.isTag = false) (hitems : ReadsAll r r' is)
    (hcloses : extent.Closes (is.length + 1) r' after) :
    ∃ c, past extent h r = some c ∧ c.StandsBefore is after := by
  rw [past, htag]
  cases extent with
  | counted n =>
    obtain ⟨rfl, rfl⟩ := hcloses
    cases is with
    | nil =>
      have hr : after = r := hitems
      exact ⟨.atEnd r, by simp [Extent.next], hr.symm⟩
    | cons i is =>
      have hnext : (Extent.counted ((i :: is).length + 1)).next
          = some (.counted (i :: is).length) := by
        simp [Extent.next]
      rw [hnext]
      exact settle_standsBefore _ hitems ⟨rfl, rfl⟩ (by simp)
  | arrayToBreak => exact settle_standsBefore .arrayToBreak hitems hcloses fun _ => rfl
  | mapToBreak valueDue =>
    obtain ⟨hparity, hbrk⟩ := hcloses
    have hparity' : is.length % 2 = (!valueDue).toNat := by
      cases valueDue <;> simp at hparity ⊢ <;> omega
    refine settle_standsBefore (.mapToBreak !valueDue) hitems ⟨hparity', hbrk⟩ ?_
    rintro rfl
    -- a map does not break off before a value
    cases valueDue with
    | true => rfl
    | false => simp at hparity'

/-- From a tag the position moves to the item that it belongs to. -/
theorem past_tag (extent : Extent) (number : Nat) {h : Head} {r r' rest : Octets} {content : Item}
    (hread : readHead r = some (h, r')) (hcontent : content.ReadsAfter h r' rest) :
    past extent (.tag number) r = some (.elem extent h r') :=
  settle_of_readHead hread hcontent.ne_brk false extent

theorem enter_standsBefore (extent : Extent) {kind : ContainerKind} {definite : Bool}
    {items : List Item} {h : Head} {r rest : Octets}
    (hread : (Item.container kind definite items).ReadsAfter h r rest)
    (hfits : definite = true → items.length < Cursor.maxCount) :
    ∃ c, (Cursor.elem extent h r).enter = some c ∧ c.StandsBefore items rest := by
  cases definite with
  | true =>
    obtain ⟨n, rfl, hlen, hitems⟩ := hread
    have hcount := hfits rfl
    rw [hlen] at hcount
    have hcloses : (Extent.counted (kind.arity * n)).Closes items.length rest rest :=
      ⟨hlen.symm, rfl⟩
    by_cases h0 : n = 0
    · obtain rfl : items = [] := List.eq_nil_of_length_eq_zero (by simp [hlen, h0])
      have hr : rest = r := hitems
      exact ⟨.atEnd r, by cases kind <;> simp [Cursor.enter, ContainerKind.head, h0], hr.symm⟩
    · have hne : items = [] → (Extent.counted (kind.arity * n)).breakOk = true := by
        rintro rfl
        cases kind <;> simp [ContainerKind.arity] at hlen <;> omega
      obtain ⟨c, hsettle, hc⟩ := settle_standsBefore _ hitems hcloses hne
      refine ⟨c, ?_, hc⟩
      cases kind with
      | array =>
        simp only [ContainerKind.arity, Nat.one_mul] at hcount hsettle
        simp [Cursor.enter, ContainerKind.head, h0, hcount]
        exact hsettle
      | map =>
        simp only [ContainerKind.arity] at hcount hsettle
        simp [Cursor.enter, ContainerKind.head, h0, hcount]
        exact hsettle
  | false =>
    obtain ⟨rfl, harity, r', hitems, hbrk⟩ := hread
    cases kind with
    | array => exact settle_standsBefore .arrayToBreak hitems hbrk fun _ => rfl
    | map =>
      have hparity : items.length % 2 = 0 := Nat.mod_eq_zero_of_dvd harity
      exact settle_standsBefore (.mapToBreak false) hitems ⟨hparity, hbrk⟩ fun _ => rfl

/-- A container is not entered when it has more items than can be counted. -/
theorem enter_eq_none {kind : ContainerKind} {definite : Bool} {items : List Item}
    {extent : Extent} {h : Head} {r rest : Octets}
    (hread : (Item.container kind definite items).ReadsAfter h r rest)
    (hfits : ¬ (definite = true → items.length < Cursor.maxCount)) :
    (Cursor.elem extent h r).enter = none := by
  obtain ⟨rfl, hcount⟩ := Classical.not_imp.mp hfits
  obtain ⟨n, rfl, hlen, -⟩ := hread
  rw [hlen, not_lt] at hcount
  have hpos : 0 < Cursor.maxCount := by decide
  cases kind with
  | array =>
    simp only [ContainerKind.arity, Nat.one_mul] at hcount
    rw [ContainerKind.head, Cursor.enter, if_neg (by omega), if_neg (by omega)]
  | map =>
    simp only [ContainerKind.arity] at hcount
    rw [ContainerKind.head, Cursor.enter, if_neg (by omega), if_neg (by omega)]

/-- A stream that starts with an item is parsed from there. -/
theorem start_standsBefore {i : Item} {bs rest : Octets} (hread : i.Reads bs rest) :
    ∃ c, Cursor.start bs = some c ∧ c.StandsBefore [i] rest := by
  obtain ⟨h, r, hhead, hi⟩ := hread
  exact ⟨_, settle_of_readHead hhead hi.ne_brk _ _, rest, rest, hi, rfl, rfl, rfl⟩

end Cbor
