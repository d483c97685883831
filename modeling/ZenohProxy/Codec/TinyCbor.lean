import ZenohProxy.Basic
import ZenohProxy.Lib.Cbor.Cursor

/-!
# The CBOR library

The program reads and writes CBOR with tinycbor, which is not part of the repository. Here
it is a parameter, `TinyCbor`: the functions the program calls, over the positions of
`Lib/Cbor/Cursor.lean`. `TinyCbor.Documented` is what the program may rely on, each function
within the precondition its documentation gives. Outside the precondition nothing is known
of a function's answer, and nothing is known of an iterator after an error.

`TinyCbor.reference` is a library that answers as documented and gives one fixed answer
outside the preconditions.
-/

namespace ZenohProxy

/-- `CborError`: the program tells no error from another but for `CborNoError`. -/
inductive CborError where
  | noError
  | outOfMemory
  | other (code : Nat)
  deriving DecidableEq, Repr

/-- `CborValue`, an iterator. -/
abbrev CborValue := Cbor.Cursor

/-- A `CborEncoder`: it writes into its buffer until that is exceeded, and from then on keeps
a count of the bytes that did not fit in the place of its write pointer. -/
inductive CborEncoder where
  | writing (written : Bytes) (room : Nat)
  | counting (needed : Nat)
  deriving DecidableEq, Repr

/-- Appends to the stream, or counts what does not fit. -/
def CborEncoder.append : CborEncoder → Bytes → CborError × CborEncoder
  | .writing written room, bs =>
    if bs.length ≤ room then (.noError, .writing (written ++ bs) (room - bs.length))
    else (.outOfMemory, .counting (bs.length - room))
  | .counting needed, bs => (.outOfMemory, .counting (needed + bs.length))

/-- The temporary buffer a string is copied to: what is read through its pointer, and whether
the pointer was set. -/
structure Temp where
  valid : Bool
  content : Bytes
  deriving DecidableEq, Repr

/-- The functions of the library the program calls. -/
structure TinyCbor where
  parserInit : Bytes → CborError × CborValue
  enterContainer : CborValue → CborError × CborValue
  advanceFixed : CborValue → CborError × CborValue
  advance : CborValue → CborError × CborValue
  getInt : CborValue → CborError × Int
  getUint64 : CborValue → CborError × Nat
  calculateStringLength : CborValue → CborError
  dupByteString : CborValue → CborError × Temp
  dupTextString : CborValue → CborError × Temp
  encoderInit : Nat → CborEncoder
  createArray : CborEncoder → CborError × CborEncoder
  encodeInt : CborEncoder → Int → CborError × CborEncoder
  encodeUint : CborEncoder → Nat → CborError × CborEncoder
  encodeByteString : CborEncoder → Bytes → CborError × CborEncoder
  encodeTextString : CborEncoder → Bytes → CborError × CborEncoder
  closeContainer : CborEncoder → CborEncoder → CborError × CborEncoder
  bufferSize : CborEncoder → Nat → Nat

/-- `cbor_value_is_integer`. -/
def isInteger (c : CborValue) : Bool :=
  match c.head? with
  | some (.uint _) | some (.nint _) => true
  | _ => false

/-- `cbor_value_is_unsigned_integer`. -/
def isUnsignedInteger (c : CborValue) : Bool :=
  match c.head? with
  | some (.uint _) => true
  | _ => false

/-- `cbor_value_is_byte_string`. -/
def isByteString (c : CborValue) : Bool :=
  match c.head? with
  | some (.bytes _) => true
  | _ => false

/-- `cbor_value_is_text_string`. -/
def isTextString (c : CborValue) : Bool :=
  match c.head? with
  | some (.text _) => true
  | _ => false

/-- `CBOR_PARSER_MAX_RECURSIONS`, the depth to which containers are passed over. -/
def cborMaxRecursions : Nat := 1024

/-- An answer is the position that the move leads to, or an error when there is none. -/
def Meets (answer : CborError × CborValue) (move : Option CborValue) : Prop :=
  match move with
  | some c => answer = (.noError, c)
  | none => answer.1 ≠ .noError

/-- The answer to reading a string: its content, or an error and no buffer. Memory for the
copy is taken to be there. -/
def MeetsString (answer : CborError × Temp) (content : Option Bytes) : Prop :=
  match content with
  | some s => answer = (.noError, ⟨true, s⟩)
  | none => answer.1 ≠ .noError ∧ answer.2.valid = false

/-- What the documentation says of the functions that start a parse, move and measure a
string. -/
structure TinyCbor.Moves (T : TinyCbor) : Prop where
  parserInit : ∀ bs, Meets (T.parserInit bs) (Cbor.Cursor.start bs)
  enterContainer : ∀ c : CborValue, c.isContainer → Meets (T.enterContainer c) c.enter
  advanceFixed : ∀ c : CborValue, c.isFixed → Meets (T.advanceFixed c) c.passFixed
  advance : ∀ c : CborValue, c.isElem → Meets (T.advance c) (c.pass cborMaxRecursions)
  calculateStringLength : ∀ kind extent len rest,
    T.calculateStringLength (.elem extent (Cbor.StringKind.head kind len) rest) = .noError ↔
      (Cbor.readString kind len rest).isSome

/-- What the documentation says of each function. -/
structure TinyCbor.Documented (T : TinyCbor) : Prop where
  parserInit : ∀ bs, Meets (T.parserInit bs) (Cbor.Cursor.start bs)
  enterContainer : ∀ c : CborValue, c.isContainer → Meets (T.enterContainer c) c.enter
  advanceFixed : ∀ c : CborValue, c.isFixed → Meets (T.advanceFixed c) c.passFixed
  advance : ∀ c : CborValue, c.isElem → Meets (T.advance c) (c.pass cborMaxRecursions)
  /-- No range check: an integer is truncated to `int`. -/
  getInt : ∀ extent h rest v, h.int? = some v →
    T.getInt (.elem extent h rest) = (.noError, toInt32 v)
  getUint64 : ∀ extent n rest, T.getUint64 (.elem extent (.uint n) rest) = (.noError, n)
  calculateStringLength : ∀ kind extent len rest,
    T.calculateStringLength (.elem extent (Cbor.StringKind.head kind len) rest) = .noError ↔
      (Cbor.readString kind len rest).isSome
  dupByteString : ∀ c : CborValue, isByteString c →
    MeetsString (T.dupByteString c) (c.string? .bytes)
  dupTextString : ∀ c : CborValue, isTextString c →
    MeetsString (T.dupTextString c) (c.string? .text)
  encoderInit : ∀ size, T.encoderInit size = .writing [] size
  /-- An array of indefinite length; the answer is the encoder of its elements. -/
  createArray : ∀ e, T.createArray e = e.append [0x9F]
  encodeInt : ∀ e v, T.encodeInt e v = e.append (Cbor.encodeInt v)
  encodeUint : ∀ e n, T.encodeUint e n = e.append (Cbor.encodeHead 0 n)
  encodeByteString : ∀ e s, T.encodeByteString e s = e.append (Cbor.encodeString .bytes s)
  encodeTextString : ∀ e s, T.encodeTextString e s = e.append (Cbor.encodeString .text s)
  closeContainer : ∀ outer e, T.closeContainer outer e = e.append [0xFF]
  /-- The difference of the write pointer and the address of the buffer. -/
  bufferSize : ∀ e address, T.bufferSize e address =
    match e with
    | .writing written _ => written.length
    | .counting needed => (((needed : Int) - address) % 2 ^ 64).toNat

theorem TinyCbor.Documented.moves {T : TinyCbor} (hT : T.Documented) : T.Moves where
  parserInit := hT.parserInit
  enterContainer := hT.enterContainer
  advanceFixed := hT.advanceFixed
  advance := hT.advance
  calculateStringLength := hT.calculateStringLength

/-! ## The library used in tests -/

/-- The answer that a move asks for. -/
def answer : Option CborValue → CborError × CborValue
  | some c => (.noError, c)
  | none => (.other 1, .invalid)

def answerString : Option Bytes → CborError × Temp
  | some s => (.noError, ⟨true, s⟩)
  | none => (.other 1, ⟨false, []⟩)

/-- A library that keeps to the documentation and answers `wild` outside the
preconditions. -/
def TinyCbor.reference (wild : CborError × CborValue) : TinyCbor where
  parserInit bs := answer (Cbor.Cursor.start bs)
  enterContainer c := if c.isContainer then answer c.enter else wild
  advanceFixed c := if c.isFixed then answer c.passFixed else wild
  advance c := if c.isElem then answer (c.pass cborMaxRecursions) else wild
  getInt c := (.noError, ((c.head?.bind Cbor.Head.int?).map toInt32).getD 0)
  getUint64 c := (.noError, match c.head? with | some (.uint n) => n | _ => 0)
  calculateStringLength c :=
    if (c.string? .bytes).isSome || (c.string? .text).isSome then .noError else .other 1
  dupByteString c := answerString (c.string? .bytes)
  dupTextString c := answerString (c.string? .text)
  encoderInit size := .writing [] size
  createArray e := e.append [0x9F]
  encodeInt e v := e.append (Cbor.encodeInt v)
  encodeUint e n := e.append (Cbor.encodeHead 0 n)
  encodeByteString e s := e.append (Cbor.encodeString .bytes s)
  encodeTextString e s := e.append (Cbor.encodeString .text s)
  closeContainer _ e := e.append [0xFF]
  bufferSize e address :=
    match e with
    | .writing written _ => written.length
    | .counting needed => (((needed : Int) - address) % 2 ^ 64).toNat

theorem meets_answer (move : Option CborValue) : Meets (answer move) move := by
  cases move <;> simp [answer, Meets]

theorem meetsString_answerString (content : Option Bytes) :
    MeetsString (answerString content) content := by
  cases content <;> simp [answerString, MeetsString]

theorem TinyCbor.reference_documented (wild : CborError × CborValue) :
    (TinyCbor.reference wild).Documented where
  parserInit bs := meets_answer _
  enterContainer c hc := by
    rw [show (TinyCbor.reference wild).enterContainer c = answer c.enter from if_pos hc]
    exact meets_answer _
  advanceFixed c hc := by
    rw [show (TinyCbor.reference wild).advanceFixed c = answer c.passFixed from if_pos hc]
    exact meets_answer _
  advance c hc := by
    rw [show (TinyCbor.reference wild).advance c = answer (c.pass cborMaxRecursions)
      from if_pos hc]
    exact meets_answer _
  getInt extent h rest v hv := by
    simp [TinyCbor.reference, Cbor.Cursor.head?, hv]
  getUint64 extent n rest := rfl
  calculateStringLength kind extent len rest := by
    cases kind <;>
      simp [TinyCbor.reference, Cbor.StringKind.head, Cbor.Cursor.string?,
        Option.isSome_iff_ne_none]
  dupByteString c hc := meetsString_answerString _
  dupTextString c hc := meetsString_answerString _
  encoderInit size := rfl
  createArray e := rfl
  encodeInt e v := rfl
  encodeUint e n := rfl
  encodeByteString e s := rfl
  encodeTextString e s := rfl
  closeContainer outer e := rfl
  bufferSize e address := rfl

end ZenohProxy
