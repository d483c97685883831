import Mathlib.Algebra.Group.Nat.Defs
import Mathlib.Algebra.Ring.Int.Defs
import Mathlib.Tactic.Common

/-!
# The wire format of CBOR

An encoded data item of CBOR starts with a head: three bits of major type, five bits of
additional information, and up to eight bytes of argument. This module reads and writes
heads, integers and strings, and proves the round trips `readHead_encodeHead`,
`readHead_encodeInt`, `readHead_encodeString`. The encoder uses the shortest argument,
the reader takes any.
-/

namespace Cbor

abbrev Octets := List UInt8

/-- The head of a data item. A length of `none` stands for the indefinite length. -/
inductive Head where
  | uint (n : Nat)
  | nint (n : Nat)
  | bytes (len : Option Nat)
  | text (len : Option Nat)
  | array (len : Option Nat)
  | map (len : Option Nat)
  | tag (n : Nat)
  | simple (n : Nat)
  | float (octets : Nat) (bits : Nat)
  | brk
  deriving DecidableEq, Repr

/-! ## Arguments -/

/-- A big-endian number. -/
def beNat (bs : Octets) : Nat := bs.foldl (fun n b => n * 256 + b.toNat) 0

/-- The `k` lowest octets of a number, big-endian. -/
def beOctets : Nat → Nat → Octets
  | 0, _ => []
  | k + 1, n => UInt8.ofNat (n / 256 ^ k) :: beOctets k n

/-- The argument that follows an initial byte: a number, or `none` for the indefinite
length. The information values 28 to 30 are reserved. -/
def readArg (info : Nat) (rest : Octets) : Option (Option Nat × Octets) :=
  if info < 24 then some (some info, rest)
  else if info < 28 then
    if 2 ^ (info - 24) ≤ rest.length then
      some (some (beNat (rest.take (2 ^ (info - 24)))), rest.drop (2 ^ (info - 24)))
    else none
  else if info = 31 then some (none, rest)
  else none

/-- The information and argument octets that stand for a number. -/
def encodeArg (n : Nat) : Nat × Octets :=
  if n < 24 then (n, [])
  else if n < 2 ^ 8 then (24, beOctets 1 n)
  else if n < 2 ^ 16 then (25, beOctets 2 n)
  else if n < 2 ^ 32 then (26, beOctets 4 n)
  else (27, beOctets 8 n)

theorem length_beOctets (k n : Nat) : (beOctets k n).length = k := by
  induction k with
  | zero => rfl
  | succ k ih => rw [beOctets, List.length_cons, ih]

theorem foldl_beOctets (k n acc : Nat) :
    (beOctets k n).foldl (fun m b => m * 256 + b.toNat) acc = acc * 256 ^ k + n % 256 ^ k := by
  induction k generalizing acc with
  | zero => simp [beOctets, Nat.mod_one]
  | succ k ih =>
    rw [beOctets, List.foldl_cons, ih]
    -- the highest octet is the digit in front of the other `k`
    have hoctet : (UInt8.ofNat (n / 256 ^ k)).toNat = n / 256 ^ k % 256 := UInt8.toNat_ofNat'
    have hsplit : n % 256 ^ (k + 1) = 256 ^ k * (n / 256 ^ k % 256) + n % 256 ^ k := by
      rw [Nat.pow_succ, Nat.mod_mul, Nat.add_comm]
    rw [hoctet, hsplit, Nat.add_mul, Nat.pow_succ, Nat.mul_assoc, Nat.mul_comm (256 ^ k) 256,
      Nat.mul_comm (256 ^ k) (_ % 256), Nat.add_assoc]

theorem beNat_beOctets {k n : Nat} (h : n < 256 ^ k) : beNat (beOctets k n) = n := by
  rw [beNat, foldl_beOctets, Nat.zero_mul, Nat.zero_add, Nat.mod_eq_of_lt h]

theorem encodeArg_info_lt (n : Nat) : (encodeArg n).1 < 28 := by
  unfold encodeArg
  split_ifs with h
  · exact Nat.lt_trans h (by decide)
  all_goals simp

theorem readArg_encodeArg {n : Nat} (hn : n < 2 ^ 64) (rest : Octets) :
    readArg (encodeArg n).1 ((encodeArg n).2 ++ rest) = some (some n, rest) := by
  -- the four widths differ only in the number of octets
  have hfixed (info : Nat) (hlo : 24 ≤ info) (hhi : info < 28) (hfit : n < 256 ^ 2 ^ (info - 24)) :
      readArg info (beOctets (2 ^ (info - 24)) n ++ rest) = some (some n, rest) := by
    have hlen := length_beOctets (2 ^ (info - 24)) n
    rw [readArg, if_neg (by omega), if_pos hhi, if_pos (by simp [hlen]),
      List.take_left' hlen, List.drop_left' hlen, beNat_beOctets hfit]
  unfold encodeArg
  split_ifs with h1 h2 h3 h4
  · simp [readArg, h1]
  · exact hfixed 24 (by decide) (by decide) (by simpa using h2)
  · exact hfixed 25 (by decide) (by decide) (by simpa using h3)
  · exact hfixed 26 (by decide) (by decide) (by simpa using h4)
  · exact hfixed 27 (by decide) (by decide) (by simpa using hn)

theorem length_encodeArg_le (n : Nat) : (encodeArg n).2.length ≤ 8 := by
  unfold encodeArg
  split_ifs <;> simp [length_beOctets]

/-! ## Heads -/

/-- The head that a major type, the information and the argument make, if any. -/
def makeHead (major info : Nat) (arg : Option Nat) : Option Head :=
  match major, arg with
  | 0, some n => some (.uint n)
  | 1, some n => some (.nint n)
  | 2, len => some (.bytes len)
  | 3, len => some (.text len)
  | 4, len => some (.array len)
  | 5, len => some (.map len)
  | 6, some n => some (.tag n)
  | 7, none => some .brk
  | 7, some n =>
    -- a simple value below 32 has no form with an octet of its own
    if info < 24 then some (.simple n)
    else if info = 24 then if n < 32 then none else some (.simple n)
    else some (.float (2 ^ (info - 24)) n)
  | _, _ => none

/-- Reads a head; `none` when the octets are cut short or no head at all. -/
def readHead : Octets → Option (Head × Octets)
  | [] => none
  | b :: rest =>
    match readArg (b.toNat % 32) rest with
    | none => none
    | some (arg, r) => (makeHead (b.toNat / 32) (b.toNat % 32) arg).map fun h => (h, r)

/-- A head with a number as its argument. -/
def encodeHead (major n : Nat) : Octets :=
  UInt8.ofNat (major * 32 + (encodeArg n).1) :: (encodeArg n).2

/-- **A written head is read back.** -/
theorem readHead_encodeHead {major n : Nat} (hmajor : major < 8) (hn : n < 2 ^ 64)
    (rest : Octets) :
    readHead (encodeHead major n ++ rest)
      = (makeHead major (encodeArg n).1 (some n)).map fun h => (h, rest) := by
  have hinfo := encodeArg_info_lt n
  have hbyte : (UInt8.ofNat (major * 32 + (encodeArg n).1)).toNat
      = major * 32 + (encodeArg n).1 := by
    rw [UInt8.toNat_ofNat']
    omega
  -- the information stays below 32, so both parts come back out of the octet
  have hmod : (major * 32 + (encodeArg n).1) % 32 = (encodeArg n).1 := by omega
  have hdiv : (major * 32 + (encodeArg n).1) / 32 = major := by omega
  rw [encodeHead, List.cons_append, readHead, hbyte, hmod, hdiv, readArg_encodeArg hn]

theorem length_encodeHead (major n : Nat) :
    (encodeHead major n).length = 1 + (encodeArg n).2.length := by
  rw [encodeHead, List.length_cons, Nat.add_comm]

theorem length_encodeHead_le (major n : Nat) : (encodeHead major n).length ≤ 9 := by
  have := length_encodeArg_le n
  rw [length_encodeHead]
  omega

theorem readHead_eq_some {bs rest : Octets} {h : Head} :
    readHead bs = some (h, rest) ↔
      ∃ b bs' arg, bs = b :: bs' ∧ readArg (b.toNat % 32) bs' = some (arg, rest) ∧
        makeHead (b.toNat / 32) (b.toNat % 32) arg = some h := by
  constructor
  · intro hread
    cases bs with
    | nil => cases hread
    | cons b bs' =>
      rw [readHead] at hread
      cases ha : readArg (b.toNat % 32) bs' with
      | none => simp [ha] at hread
      | some ar =>
        simp only [ha, Option.map_eq_some_iff, Prod.mk.injEq] at hread
        obtain ⟨h', hmake, rfl, rfl⟩ := hread
        exact ⟨b, bs', ar.1, rfl, ha, hmake⟩
  · rintro ⟨b, bs', arg, rfl, ha, hmake⟩
    simp [readHead, ha, hmake]

theorem readArg_append {info : Nat} {bs rest : Octets} {arg : Option Nat}
    (hread : readArg info bs = some (arg, rest)) (more : Octets) :
    readArg info (bs ++ more) = some (arg, rest ++ more) := by
  unfold readArg at hread ⊢
  by_cases h1 : info < 24
  · rw [if_pos h1] at hread ⊢
    cases hread
    rfl
  · rw [if_neg h1] at hread ⊢
    by_cases h2 : info < 28
    · rw [if_pos h2] at hread ⊢
      by_cases h3 : 2 ^ (info - 24) ≤ bs.length
      · rw [if_pos h3] at hread
        cases hread
        -- the argument lies within the first part
        rw [if_pos (by rw [List.length_append]; omega), List.take_append_of_le_length h3,
          List.drop_append_of_le_length h3]
      · rw [if_neg h3] at hread
        cases hread
    · rw [if_neg h2] at hread ⊢
      by_cases h4 : info = 31
      · rw [if_pos h4] at hread ⊢
        cases hread
        rfl
      · rw [if_neg h4] at hread
        cases hread

theorem readHead_append {bs rest : Octets} {h : Head} (hread : readHead bs = some (h, rest))
    (more : Octets) : readHead (bs ++ more) = some (h, rest ++ more) := by
  obtain ⟨b, bs', arg, rfl, ha, hmake⟩ := readHead_eq_some.mp hread
  exact readHead_eq_some.mpr ⟨b, bs' ++ more, arg, rfl, readArg_append ha more, hmake⟩

theorem readArg_take {info n : Nat} {bs rest : Octets} {arg : Option Nat} (hn : 8 ≤ n)
    (hread : readArg info bs = some (arg, rest)) :
    ∃ m, n ≤ m + 8 ∧ readArg info (bs.take n) = some (arg, rest.take m) := by
  unfold readArg at hread ⊢
  by_cases h1 : info < 24
  · rw [if_pos h1] at hread ⊢
    cases hread
    exact ⟨n, by omega, rfl⟩
  · rw [if_neg h1] at hread ⊢
    by_cases h2 : info < 28
    · rw [if_pos h2] at hread ⊢
      -- an argument has at most eight octets
      have hsize : 2 ^ (info - 24) ≤ 2 ^ 3 := Nat.pow_le_pow_right (by decide) (by omega)
      by_cases h3 : 2 ^ (info - 24) ≤ bs.length
      · rw [if_pos h3] at hread
        cases hread
        refine ⟨n - 2 ^ (info - 24), by omega, ?_⟩
        rw [if_pos (by rw [List.length_take]; omega), List.take_take, List.drop_take,
          Nat.min_eq_left (by omega)]
      · rw [if_neg h3] at hread
        cases hread
    · rw [if_neg h2] at hread ⊢
      by_cases h4 : info = 31
      · rw [if_pos h4] at hread ⊢
        cases hread
        exact ⟨n, by omega, rfl⟩
      · rw [if_neg h4] at hread
        cases hread

/-- A head is read from its first nine octets. -/
theorem readHead_take {bs rest : Octets} {h : Head} {n : Nat} (hn : 9 ≤ n)
    (hread : readHead bs = some (h, rest)) :
    ∃ m, n ≤ m + 9 ∧ readHead (bs.take n) = some (h, rest.take m) := by
  obtain ⟨b, bs', arg, rfl, ha, hmake⟩ := readHead_eq_some.mp hread
  obtain ⟨n, rfl⟩ : ∃ k, n = k + 1 := ⟨n - 1, by omega⟩
  obtain ⟨m, hm, htake⟩ := readArg_take (n := n) (by omega) ha
  exact ⟨m, by omega, readHead_eq_some.mpr ⟨b, bs'.take n, arg, rfl, htake, hmake⟩⟩

/-! ## Integers and strings -/

/-- The integer a head stands for. -/
def Head.int? : Head → Option Int
  | .uint n => some n
  | .nint n => some (-1 - n)
  | _ => none

/-- The unsigned integer a head stands for. -/
def Head.uint? : Head → Option Nat
  | .uint n => some n
  | _ => none

def encodeInt (v : Int) : Octets :=
  if 0 ≤ v then encodeHead 0 v.toNat else encodeHead 1 (-1 - v).toNat

theorem length_encodeInt_le (v : Int) : (encodeInt v).length ≤ 9 := by
  unfold encodeInt
  split <;> exact length_encodeHead_le _ _

/-- The head of an integer. -/
def intHead (v : Int) : Head := if 0 ≤ v then .uint v.toNat else .nint (-1 - v).toNat

@[simp] theorem int?_intHead (v : Int) : (intHead v).int? = some v := by
  unfold intHead
  split <;> simp only [Head.int?, Option.some.injEq] <;> omega

theorem readHead_encodeInt {v : Int} (hlo : -2 ^ 64 ≤ v) (hhi : v < 2 ^ 64) (rest : Octets) :
    readHead (encodeInt v ++ rest) = some (intHead v, rest) := by
  unfold encodeInt intHead
  split
  · rw [readHead_encodeHead (by decide) (by omega)]
    rfl
  · rw [readHead_encodeHead (by decide) (by omega)]
    rfl

/-- The two kinds of string. -/
inductive StringKind where
  | bytes
  | text
  deriving DecidableEq, Repr

def StringKind.head : StringKind → Option Nat → Head
  | .bytes => .bytes
  | .text => .text

def StringKind.major : StringKind → Nat
  | .bytes => 2
  | .text => 3

/-- The chunks of a string of indefinite length, each a string of the same kind and of
definite length, up to the break. Every chunk takes an octet, so the number of octets is
enough fuel. -/
def readChunks (kind : StringKind) : Nat → Octets → Option (Octets × Octets)
  | 0, _ => none
  | fuel + 1, bs =>
    match readHead bs with
    | some (.brk, r) => some ([], r)
    | some (.bytes (some n), r) =>
      if kind = .bytes ∧ n ≤ r.length then
        (readChunks kind fuel (r.drop n)).map fun s => (r.take n ++ s.1, s.2)
      else none
    | some (.text (some n), r) =>
      if kind = .text ∧ n ≤ r.length then
        (readChunks kind fuel (r.drop n)).map fun s => (r.take n ++ s.1, s.2)
      else none
    -- a chunk of another kind, or again of indefinite length
    | _ => none

/-- The content of a string after its head. -/
def readString (kind : StringKind) (len : Option Nat) (rest : Octets) :
    Option (Octets × Octets) :=
  match len with
  | some n => if n ≤ rest.length then some (rest.take n, rest.drop n) else none
  | none => readChunks kind rest.length rest

def encodeString (kind : StringKind) (s : Octets) : Octets :=
  encodeHead kind.major s.length ++ s

theorem readHead_encodeString {kind : StringKind} {s : Octets} (hs : s.length < 2 ^ 64)
    (rest : Octets) :
    readHead (encodeString kind s ++ rest) = some (kind.head (some s.length), s ++ rest) := by
  rw [encodeString, List.append_assoc]
  cases kind with
  | bytes =>
    rw [readHead_encodeHead (by decide) hs]
    rfl
  | text =>
    rw [readHead_encodeHead (by decide) hs]
    rfl

theorem readString_append (kind : StringKind) (s rest : Octets) :
    readString kind (some s.length) (s ++ rest) = some (s, rest) := by
  simp [readString]

end Cbor
