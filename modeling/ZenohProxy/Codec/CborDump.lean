import ZenohProxy.Codec.TinyCbor
import ZenohProxy.Lib.Cbor.Item
import ZenohProxy.Lib.Numeral

/-!
# The dump of a data item

`cborDump` writes a data item as text, for the log. `dumpCborRecursive` goes through the elements
of a container in a loop and calls itself for the containers among them; everything is put into
one `stringstream`. A half float is put out with the manipulator `hex`, which stays set.

`Runs` and `Steps` are what the calls and the steps of the loop do with enough fuel, and `Visits`
are the heads of the loops that a call comes to. What is put out there is the subject of
`Codec/DumpText.lean`.
-/

namespace ZenohProxy

open Cbor

/-- The conversion of a wider integer to `int64_t` or `long long`. -/
def toInt64 (v : Int) : Int := v.bmod (2 ^ 64)

/-- The values of an `int64_t`. -/
def IsInt64 (v : Int) : Prop := -2 ^ 63 ≤ v ∧ v < 2 ^ 63

theorem toInt64_eq_iff (v : Int) : toInt64 v = v ↔ IsInt64 v := by
  unfold toInt64 IsInt64
  constructor
  · intro h
    have hlo := Int.le_bmod (x := v) (m := 2 ^ 64) (by decide)
    have hhi := Int.bmod_lt (x := v) (m := 2 ^ 64) (by decide)
    omega
  · intro ⟨hlo, hhi⟩
    exact Int.bmod_eq_of_le (by omega) (by omega)

theorem isInt64_toInt64 (v : Int) : IsInt64 (toInt64 v) := by
  have hlo := Int.le_bmod (x := v) (m := 2 ^ 64) (by decide)
  have hhi := Int.bmod_lt (x := v) (m := 2 ^ 64) (by decide)
  unfold toInt64 IsInt64
  omega

/-! ## The library -/

/-- The functions of the library that only the dump calls. -/
structure DumpCbor extends TinyCbor where
  leaveContainer : CborValue → CborValue → CborError × CborValue
  getInt64 : CborValue → CborError × Int
  /-- With the iterator moved on. -/
  dupByteStringNext : CborValue → CborError × Temp × CborValue
  dupTextStringNext : CborValue → CborError × Temp × CborValue
  getTag : CborValue → CborError × Nat
  getSimpleType : CborValue → CborError × UInt8
  getBoolean : CborValue → CborError × Bool
  getHalfFloat : CborValue → CborError × Nat
  getFloat : CborValue → CborError × Nat
  getDouble : CborValue → CborError × Nat

/-- What the documentation says of them. -/
structure DumpCbor.Documented (T : DumpCbor) : Prop where
  moves : T.Moves
  leaveContainer : ∀ extent h r after, h.isContainer →
    Meets (T.leaveContainer (.elem extent h r) (.atEnd after)) (past extent h after)
  /-- No range check: an integer is truncated to `int64_t`. -/
  getInt64 : ∀ extent h r v, h.int? = some v →
    T.getInt64 (.elem extent h r) = (.noError, toInt64 v)
  dupByteStringNext : ∀ extent len r content r' c, readString .bytes len r = some (content, r') →
    past extent (.bytes len) r' = some c →
    T.dupByteStringNext (.elem extent (.bytes len) r) = (.noError, ⟨true, content⟩, c)
  dupTextStringNext : ∀ extent len r content r' c, readString .text len r = some (content, r') →
    past extent (.text len) r' = some c →
    T.dupTextStringNext (.elem extent (.text len) r) = (.noError, ⟨true, content⟩, c)
  getTag : ∀ extent n r, T.getTag (.elem extent (.tag n) r) = (.noError, n)
  getSimpleType : ∀ extent n r,
    T.getSimpleType (.elem extent (.simple n) r) = (.noError, UInt8.ofNat n)
  getBoolean : ∀ extent n r, n = 20 ∨ n = 21 →
    T.getBoolean (.elem extent (.simple n) r) = (.noError, n == 21)
  getHalfFloat : ∀ extent bits r, T.getHalfFloat (.elem extent (.float 2 bits) r) = (.noError, bits)
  getFloat : ∀ extent bits r, T.getFloat (.elem extent (.float 4 bits) r) = (.noError, bits)
  getDouble : ∀ extent bits r, T.getDouble (.elem extent (.float 8 bits) r) = (.noError, bits)

/-- `cbor_value_at_end`. -/
def atEnd : CborValue → Bool
  | .atEnd _ => true
  | _ => false

inductive CborType where
  | integer
  | byteString
  | textString
  | array
  | map
  | tag
  | simple
  | boolean
  | null
  | undefined
  | halfFloat
  | float
  | double
  | invalid
  deriving DecidableEq, Repr

/-- `cbor_value_get_type`. -/
def getType (c : CborValue) : CborType :=
  match c.head? with
  | some (.uint _) | some (.nint _) => .integer
  | some (.bytes _) => .byteString
  | some (.text _) => .textString
  | some (.array _) => .array
  | some (.map _) => .map
  | some (.tag _) => .tag
  | some (.simple n) =>
    if n = 20 ∨ n = 21 then .boolean
    else if n = 22 then .null
    else if n = 23 then .undefined
    else .simple
  | some (.float 2 _) => .halfFloat
  | some (.float 4 _) => .float
  | some (.float 8 _) => .double
  | _ => .invalid

/-- A string and the position behind it. -/
def answerStringNext (extent : Extent) (h : Head) : Option (Bytes × Bytes) →
    CborError × Temp × CborValue
  | some (content, r) =>
    match past extent h r with
    | some c => (.noError, ⟨true, content⟩, c)
    | none => (.other 1, ⟨false, []⟩, .invalid)
  | none => (.other 1, ⟨false, []⟩, .invalid)

/-- A library that keeps to the documentation and answers `wild` outside the preconditions. -/
def DumpCbor.reference (wild : CborError × CborValue) : DumpCbor where
  toTinyCbor := TinyCbor.reference wild
  leaveContainer
    | .elem extent h _, .atEnd after => answer (past extent h after)
    | _, _ => wild
  getInt64 c := (.noError, ((c.head?.bind Head.int?).map toInt64).getD 0)
  dupByteStringNext
    | .elem extent (.bytes len) r => answerStringNext extent (.bytes len) (readString .bytes len r)
    | _ => (.other 1, ⟨false, []⟩, .invalid)
  dupTextStringNext
    | .elem extent (.text len) r => answerStringNext extent (.text len) (readString .text len r)
    | _ => (.other 1, ⟨false, []⟩, .invalid)
  getTag c := (.noError, match c.head? with | some (.tag n) => n | _ => 0)
  getSimpleType c := (.noError, match c.head? with | some (.simple n) => UInt8.ofNat n | _ => 0)
  getBoolean c := (.noError, c.head? == some (.simple 21))
  getHalfFloat c := (.noError, match c.head? with | some (.float _ bits) => bits | _ => 0)
  getFloat c := (.noError, match c.head? with | some (.float _ bits) => bits | _ => 0)
  getDouble c := (.noError, match c.head? with | some (.float _ bits) => bits | _ => 0)

theorem DumpCbor.reference_documented (wild : CborError × CborValue) :
    (DumpCbor.reference wild).Documented where
  moves := (TinyCbor.reference_documented wild).moves
  leaveContainer extent h r after _ := meets_answer _
  getInt64 extent h r v hv := by simp [DumpCbor.reference, Cursor.head?, hv]
  dupByteStringNext extent len r content r' c hread hpast := by
    simp [DumpCbor.reference, answerStringNext, hread, hpast]
  dupTextStringNext extent len r content r' c hread hpast := by
    simp [DumpCbor.reference, answerStringNext, hread, hpast]
  getTag extent n r := rfl
  getSimpleType extent n r := rfl
  getBoolean extent n r hn := by
    rcases hn with rfl | rfl <;> rfl
  getHalfFloat extent bits r := rfl
  getFloat extent bits r := rfl
  getDouble extent bits r := rfl

/-! ## The stream -/

/-- The texts that come from outside of the program: a size put out by `string_format` with
`[%d]`, and the two kinds of floating-point numbers, from their bits. -/
structure Formats where
  size : Nat → Str
  float : Nat → Str
  double : Nat → Str

def decimal (v : Int) : Str :=
  if v < 0 then str "-" ++ Numeral.numeral 10 v.natAbs else Numeral.numeral 10 v.natAbs

/-- In hexadecimal an integer is put out without a sign. -/
def hexadecimal (v : Int) : Str := Numeral.numeral 16 (v % 2 ^ 64).toNat

/-- An integer as a stream puts it out, with the manipulator `hex` set or not. -/
def integerText (hex : Bool) (v : Int) : Str := if hex then hexadecimal v else decimal v

/-- A `stringstream`: what was put into it, and whether `hex` is set. -/
structure StringStream where
  text : Str
  hex : Bool
  deriving DecidableEq, Repr

namespace StringStream

def empty : StringStream := ⟨[], false⟩

def put (ss : StringStream) (s : Str) : StringStream := { ss with text := ss.text ++ s }

def putInteger (ss : StringStream) (v : Int) : StringStream := ss.put (integerText ss.hex v)

def setHex (ss : StringStream) : StringStream := { ss with hex := true }

@[simp] theorem put_text (ss : StringStream) (s : Str) : (ss.put s).text = ss.text ++ s := rfl

@[simp] theorem put_hex (ss : StringStream) (s : Str) : (ss.put s).hex = ss.hex := rfl

@[simp] theorem put_put (ss : StringStream) (s t : Str) :
    (ss.put s).put t = ss.put (s ++ t) := by
  simp [put]

end StringStream

def indent : Nat → StringStream → StringStream
  | 0, ss => ss
  | nestingLevel + 1, ss => indent nestingLevel (ss.put (str " "))

def hexChar (b : UInt8) : UInt8 := (str "0123456789ABCDEF").getD b.toNat 0

/-- `hexDump`, with its default spacer. -/
def hexDump (F : Formats) (bs : Bytes) : Str :=
  F.size bs.length
    ++ bs.flatMap fun (b : UInt8) => [hexChar (b >>> 4), hexChar (b &&& 0xF)] ++ str " "

/-! ## The dump -/

/-- What a call leaves: the error, the stream and the iterator. -/
abbrev Dumped := CborError × StringStream × CborValue

/-- `CBOR_CHECK`. -/
def cborCheck {α : Type} (answer : CborError × α) (ss : StringStream) (it : CborValue)
    (go : α → Option Dumped) : Option Dumped :=
  if answer.1 = .noError then go answer.2 else some (answer.1, ss, it)

def opening : ContainerKind → Str
  | .array => str "Array["
  | .map => str "Map\x7b"

def closing : ContainerKind → Str
  | .array => str "]"
  | .map => str "\x7d"

def containerType : ContainerKind → CborType
  | .array => .array
  | .map => .map

/-- The cases of the two containers. -/
def dumpContainer (T : DumpCbor) (recursive : StringStream → CborValue → Nat → Option Dumped)
    (kind : ContainerKind) (ss : StringStream) (it : CborValue) (nestingLevel : Nat) :
    Option Dumped :=
  let ss := ss.put (opening kind)
  cborCheck (T.enterContainer it) ss it fun recursed => do
    let (ret, ss, recursed) ← recursive ss recursed (nestingLevel + 1)
    cborCheck (ret, recursed) ss it fun recursed =>
      cborCheck (T.leaveContainer it recursed) ss it fun it =>
        some (.noError, (indent nestingLevel ss).put (closing kind), it)

/-- The last step of a case that ends with `break`. -/
def advanceFixed (T : DumpCbor) (ss : StringStream) (it : CborValue) : Option Dumped :=
  cborCheck (T.advanceFixed it) ss it fun it => some (.noError, ss, it)

/-- The body of the loop. -/
def dumpValue (T : DumpCbor) (F : Formats)
    (recursive : StringStream → CborValue → Nat → Option Dumped) (ss : StringStream)
    (it : CborValue) (nestingLevel : Nat) : Option Dumped :=
  let ss := indent nestingLevel ss
  match getType it with
  | .array => dumpContainer T recursive .array ss it nestingLevel
  | .map => dumpContainer T recursive .map ss it nestingLevel
  | .integer =>
    cborCheck (T.getInt64 it) ss it fun val =>
      advanceFixed T ((ss.putInteger val).put (str ",")) it
  | .byteString =>
    cborCheck (T.dupByteStringNext it) ss it fun (buf, it) =>
      some (.noError, ss.put (hexDump F buf.content), it)
  | .textString =>
    cborCheck (T.dupTextStringNext it) ss it fun (buf, it) =>
      some (.noError, ((ss.put (str "'")).put (cStr buf.content)).put (str "'"), it)
  | .tag =>
    cborCheck (T.getTag it) ss it fun tag =>
      advanceFixed T ((((ss.put (str "Tag(")).putInteger (toInt64 tag)).put (str ")")).put
        (str ",")) it
  | .simple =>
    -- a `uint8_t` is put out as a character
    cborCheck (T.getSimpleType it) ss it fun type =>
      advanceFixed T ((((ss.put (str "simple(")).put [type]).put (str ")")).put (str ",")) it
  | .null => advanceFixed T (ss.put (str "null")) it
  | .undefined => advanceFixed T (ss.put (str "undefined")) it
  | .boolean =>
    cborCheck (T.getBoolean it) ss it fun val =>
      advanceFixed T (ss.put (if val then str "true" else str "false")) it
  | .halfFloat =>
    cborCheck (T.getHalfFloat it) ss it fun val =>
      advanceFixed T (((((ss.put (str "__f16(")).setHex).putInteger val).put (str ")")).put
        (str ",")) it
  | .float =>
    cborCheck (T.getFloat it) ss it fun val =>
      advanceFixed T ((ss.put (F.float val)).put (str ",")) it
  | .double =>
    cborCheck (T.getDouble it) ss it fun val =>
      advanceFixed T ((ss.put (F.double val)).put (str ",")) it
  | .invalid => some (.other 259, ss, it)

/-- The fuel bounds the steps of the loop and the depth of the calls. -/
def dumpCborRecursive (T : DumpCbor) (F : Formats) :
    Nat → StringStream → CborValue → Nat → Option Dumped
  | 0, _, _, _ => none
  | fuel + 1, ss, it, nestingLevel =>
    if atEnd it then some (.noError, ss, it)
    else do
      let (ret, ss, it) ← dumpValue T F (dumpCborRecursive T F fuel) ss it nestingLevel
      if ret = .noError then dumpCborRecursive T F fuel ss it nestingLevel
      else some (ret, ss, it)

def cborDump (T : DumpCbor) (F : Formats) (fuel : Nat) (bs : Bytes) : Option Str :=
  (dumpCborRecursive T F fuel .empty (T.parserInit bs).2 0).map fun r => r.2.1.text

/-! ## Runs -/

section Runs

variable {T : DumpCbor} {F : Formats}

/-- With enough fuel the call ends with `r`. -/
def Runs (T : DumpCbor) (F : Formats) (ss : StringStream) (it : CborValue) (level : Nat)
    (r : Dumped) : Prop :=
  ∃ fuel, dumpCborRecursive T F fuel ss it level = some r

/-- With enough fuel one step of the loop ends with `r`. -/
def Steps (T : DumpCbor) (F : Formats) (ss : StringStream) (it : CborValue) (level : Nat)
    (r : Dumped) : Prop :=
  ∃ fuel, dumpValue T F (dumpCborRecursive T F fuel) ss it level = some r

/-- The loop puts out the item that the iterator stands at, a tag with the item it belongs to. -/
inductive Appends (T : DumpCbor) (F : Formats) (level : Nat) :
    StringStream → CborValue → StringStream → CborValue → Prop
  | value {ss ss' : StringStream} {it it' : CborValue} :
    getType it ≠ .tag → Steps T F ss it level (.noError, ss', it') →
    Appends T F level ss it ss' it'
  | tagged {ss ss₁ ss' : StringStream} {it it₁ it' : CborValue} :
    getType it = .tag → Steps T F ss it level (.noError, ss₁, it₁) →
    Appends T F level ss₁ it₁ ss' it' → Appends T F level ss it ss' it'

/-- The heads of the loop that a call comes to, in the calls that it makes too. -/
inductive Visits (T : DumpCbor) (F : Formats) :
    StringStream → CborValue → Nat → StringStream → CborValue → Nat → Prop
  | here {ss : StringStream} {it : CborValue} {level : Nat} :
    atEnd it = false → Visits T F ss it level ss it level
  | next {ss ss₁ ss' : StringStream} {it it₁ it' : CborValue} {level level' : Nat} :
    Steps T F ss it level (.noError, ss₁, it₁) →
    Visits T F ss₁ it₁ level ss' it' level' → Visits T F ss it level ss' it' level'
  | inside {ss ss' : StringStream} {it it₁ it' : CborValue} {level level' : Nat}
    {kind : ContainerKind} :
    getType it = containerType kind → T.enterContainer it = (.noError, it₁) →
    Visits T F ((indent level ss).put (opening kind)) it₁ (level + 1) ss' it' level' →
    Visits T F ss it level ss' it' level'

theorem cborCheck_eq_some {α : Type} {answer : CborError × α} {ss : StringStream}
    {it : CborValue} {go : α → Option Dumped} {r : Dumped}
    (hr : cborCheck answer ss it go = some r) (hok : r.1 = .noError) :
    answer.1 = .noError ∧ go answer.2 = some r := by
  unfold cborCheck at hr
  split at hr
  · exact ⟨‹_›, hr⟩
  · cases hr
    contradiction

theorem cborCheck_mono {α : Type} {answer : CborError × α} {ss : StringStream}
    {it : CborValue} {go go' : α → Option Dumped} {r : Dumped}
    (hgo : ∀ a r, go a = some r → go' a = some r)
    (hr : cborCheck answer ss it go = some r) : cborCheck answer ss it go' = some r := by
  unfold cborCheck at hr ⊢
  split at hr
  · rename_i hok
    rw [if_pos hok]
    exact hgo _ _ hr
  · rename_i herr
    rw [if_neg herr]
    exact hr

/-- What the calls answer is only asked for in a container. -/
theorem dumpValue_mono {recursive recursive' : StringStream → CborValue → Nat → Option Dumped}
    (hrec : ∀ ss it level r, recursive ss it level = some r → recursive' ss it level = some r)
    {ss : StringStream} {it : CborValue} {level : Nat} {r : Dumped}
    (hr : dumpValue T F recursive ss it level = some r) :
    dumpValue T F recursive' ss it level = some r := by
  have hcontainer (kind : ContainerKind) {ss : StringStream}
      (hr : dumpContainer T recursive kind ss it level = some r) :
      dumpContainer T recursive' kind ss it level = some r := by
    unfold dumpContainer at hr ⊢
    refine cborCheck_mono (fun recursed r hrun => ?_) hr
    obtain ⟨inner, hinner, hleave⟩ := Option.bind_eq_some_iff.mp hrun
    exact Option.bind_eq_some_iff.mpr ⟨inner, hrec _ _ _ _ hinner, hleave⟩
  unfold dumpValue at hr ⊢
  cases htype : getType it <;> simp only [htype] at hr ⊢
  case array => exact hcontainer .array hr
  case map => exact hcontainer .map hr
  all_goals exact hr

theorem dumpCborRecursive_mono {fuel fuel' : Nat} (hfuel : fuel ≤ fuel') :
    ∀ ss it level r, dumpCborRecursive T F fuel ss it level = some r →
      dumpCborRecursive T F fuel' ss it level = some r := by
  induction fuel generalizing fuel' with
  | zero => simp [dumpCborRecursive]
  | succ fuel ih =>
    intro ss it level r hr
    obtain ⟨fuel', rfl⟩ : ∃ k, fuel' = k + 1 := ⟨fuel' - 1, by omega⟩
    have hrec := ih (Nat.le_of_succ_le_succ hfuel)
    rw [dumpCborRecursive] at hr ⊢
    by_cases hend : atEnd it
    · rw [if_pos hend] at hr ⊢
      exact hr
    · rw [if_neg hend] at hr ⊢
      obtain ⟨⟨ret, ss₁, it₁⟩, hstep, hrest⟩ := Option.bind_eq_some_iff.mp hr
      refine Option.bind_eq_some_iff.mpr ⟨_, dumpValue_mono hrec hstep, ?_⟩
      by_cases hret : ret = .noError
      · simp only [if_pos hret] at hrest ⊢
        exact hrec _ _ _ _ hrest
      · simp only [if_neg hret] at hrest ⊢
        exact hrest

theorem Runs.det {ss : StringStream} {it : CborValue} {level : Nat} {r r' : Dumped}
    (hr : Runs T F ss it level r) (hr' : Runs T F ss it level r') : r = r' := by
  obtain ⟨fuel, hr⟩ := hr
  obtain ⟨fuel', hr'⟩ := hr'
  have h := dumpCborRecursive_mono (Nat.le_max_left fuel fuel') _ _ _ _ hr
  rw [dumpCborRecursive_mono (Nat.le_max_right fuel fuel') _ _ _ _ hr'] at h
  exact (Option.some.inj h).symm

theorem Steps.det {ss : StringStream} {it : CborValue} {level : Nat} {r r' : Dumped}
    (hr : Steps T F ss it level r) (hr' : Steps T F ss it level r') : r = r' := by
  obtain ⟨fuel, hr⟩ := hr
  obtain ⟨fuel', hr'⟩ := hr'
  have h := dumpValue_mono (dumpCborRecursive_mono (Nat.le_max_left fuel fuel')) hr
  rw [dumpValue_mono (dumpCborRecursive_mono (Nat.le_max_right fuel fuel')) hr'] at h
  exact (Option.some.inj h).symm

theorem runs_atEnd {ss : StringStream} {it : CborValue} {level : Nat} (hend : atEnd it = true) :
    Runs T F ss it level (.noError, ss, it) :=
  ⟨1, by simp [dumpCborRecursive, hend]⟩

/-- There is nothing to put out at the end of a container. -/
theorem Steps.not_atEnd {ss ss' : StringStream} {it it' : CborValue} {level : Nat}
    (hstep : Steps T F ss it level (.noError, ss', it')) : atEnd it = false := by
  obtain ⟨fuel, hstep⟩ := hstep
  cases it with
  | atEnd rest => simp [dumpValue, getType, Cursor.head?] at hstep
  | elem extent h r => rfl
  | invalid => rfl

theorem Steps.runs {ss ss₁ : StringStream} {it it₁ : CborValue} {level : Nat} {r : Dumped}
    (hstep : Steps T F ss it level (.noError, ss₁, it₁)) (hrest : Runs T F ss₁ it₁ level r) :
    Runs T F ss it level r := by
  have hend := hstep.not_atEnd
  obtain ⟨fuel, hstep⟩ := hstep
  obtain ⟨fuel', hrest⟩ := hrest
  have hstep' := dumpValue_mono (dumpCborRecursive_mono (Nat.le_max_left fuel fuel')) hstep
  have hrest' := dumpCborRecursive_mono (Nat.le_max_right fuel fuel') _ _ _ _ hrest
  exact ⟨max fuel fuel' + 1, by simp [dumpCborRecursive, hend, hstep', hrest']⟩

theorem Appends.runs {ss ss₁ : StringStream} {it it₁ : CborValue} {level : Nat} {r : Dumped}
    (happends : Appends T F level ss it ss₁ it₁) (hrest : Runs T F ss₁ it₁ level r) :
    Runs T F ss it level r := by
  induction happends with
  | value _ hstep => exact hstep.runs hrest
  | tagged _ hstep _ ih => exact hstep.runs (ih hrest)

/-- A container is put out when it is entered, gone through and left. -/
theorem steps_container {kind : ContainerKind} {ss ss' : StringStream}
    {it recursed inner it' : CborValue} {level : Nat} (htype : getType it = containerType kind)
    (henter : T.enterContainer it = (.noError, recursed))
    (hinner : Runs T F ((indent level ss).put (opening kind)) recursed (level + 1)
      (.noError, ss', inner))
    (hleave : T.leaveContainer it inner = (.noError, it')) :
    Steps T F ss it level (.noError, (indent level ss').put (closing kind), it') := by
  obtain ⟨fuel, hinner⟩ := hinner
  have hcontainer : dumpContainer T (dumpCborRecursive T F fuel) kind (indent level ss) it level
      = some (.noError, (indent level ss').put (closing kind), it') := by
    simp [dumpContainer, cborCheck, henter, hinner, hleave]
  refine ⟨fuel, ?_⟩
  cases kind <;> simpa [dumpValue, htype, containerType] using hcontainer

/-- Only so is it put out without an error. -/
theorem Steps.exists_runs {kind : ContainerKind} {ss ss' : StringStream} {it it' : CborValue}
    {level : Nat} (htype : getType it = containerType kind)
    (hstep : Steps T F ss it level (.noError, ss', it')) :
    ∃ recursed ss₁ inner, T.enterContainer it = (.noError, recursed) ∧
      Runs T F ((indent level ss).put (opening kind)) recursed (level + 1)
        (.noError, ss₁, inner) := by
  obtain ⟨fuel, hstep⟩ := hstep
  have hcontainer : dumpContainer T (dumpCborRecursive T F fuel) kind (indent level ss) it level
      = some (.noError, ss', it') := by
    cases kind <;> simpa [dumpValue, htype, containerType] using hstep
  unfold dumpContainer at hcontainer
  obtain ⟨henter, hrest⟩ := cborCheck_eq_some hcontainer rfl
  obtain ⟨⟨ret, ss₁, inner⟩, hinner, hcheck⟩ := Option.bind_eq_some_iff.mp hrest
  obtain ⟨rfl, -⟩ := cborCheck_eq_some hcheck rfl
  exact ⟨_, ss₁, inner, Prod.ext henter rfl, fuel, hinner⟩

end Runs

end ZenohProxy
