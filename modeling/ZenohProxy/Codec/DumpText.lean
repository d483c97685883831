import ZenohProxy.Codec.CborDump

/-!
# What the dump puts out

The text of an item is a function of the item, of its level, and of whether `hex` is set in the
stream (`itemText`). There is a lemma for the step of the loop at each kind of item, and
`appends_of_fits` puts them together: the loop puts out that text for every item of which no
container has too many items for the library.
-/

namespace ZenohProxy

open Cbor

/-! ## The text of an item -/

def spaces (level : Nat) : Str := List.replicate level 32

def simpleText (n : Nat) : Str :=
  if n = 20 ∨ n = 21 then if n = 21 then str "true" else str "false"
  else if n = 22 then str "null"
  else if n = 23 then str "undefined"
  else str "simple(" ++ ([UInt8.ofNat n] ++ (str ")" ++ str ","))

def floatText (F : Formats) : FloatWidth → Nat → Str
  | .half, bits => str "__f16(" ++ (hexadecimal bits ++ (str ")" ++ str ","))
  | .single, bits => F.float bits ++ str ","
  | .double, bits => F.double bits ++ str ","

def stringText (F : Formats) : StringKind → Octets → Str
  | .bytes, content => hexDump F content
  | .text, content => str "'" ++ (cStr content ++ str "'")

def tagText (hex : Bool) (number : Nat) : Str :=
  str "Tag(" ++ (integerText hex (toInt64 number) ++ (str ")" ++ str ","))

mutual

/-- Is there a half float in the item? -/
def hasHalf : Item → Bool
  | .float .half _ => true
  | .container _ _ items => hasHalfAmong items
  | .tag _ content => hasHalf content
  | _ => false

def hasHalfAmong : List Item → Bool
  | [] => false
  | i :: is => hasHalf i || hasHalfAmong is

end

mutual

/-- What is put out for an item, with `hex` set or not. -/
def itemText (F : Formats) (hex : Bool) (level : Nat) : Item → Str
  | .int v => spaces level ++ (integerText hex (toInt64 v) ++ str ",")
  | .string kind content => spaces level ++ stringText F kind content
  | .container kind _ items =>
    spaces level ++ (opening kind ++ (itemsText F hex (level + 1) items ++
      (spaces level ++ closing kind)))
  | .tag number content => spaces level ++ (tagText hex number ++ itemText F hex level content)
  | .simple n => spaces level ++ simpleText n
  | .float width bits => spaces level ++ floatText F width bits

def itemsText (F : Formats) (hex : Bool) (level : Nat) : List Item → Str
  | [] => []
  | i :: is => itemText F hex level i ++ itemsText F (hex || hasHalf i) level is

end

/-- The stream after an item. -/
def StringStream.after (ss : StringStream) (F : Formats) (level : Nat) (i : Item) :
    StringStream :=
  ⟨ss.text ++ itemText F ss.hex level i, ss.hex || hasHalf i⟩

def StringStream.afterAll (ss : StringStream) (F : Formats) (level : Nat) (items : List Item) :
    StringStream :=
  ⟨ss.text ++ itemsText F ss.hex level items, ss.hex || hasHalfAmong items⟩

theorem StringStream.afterAll_nil (ss : StringStream) (F : Formats) (level : Nat) :
    ss.afterAll F level [] = ss := by
  simp [afterAll, itemsText, hasHalfAmong]

theorem StringStream.afterAll_cons (ss : StringStream) (F : Formats) (level : Nat) (i : Item)
    (is : List Item) :
    ss.afterAll F level (i :: is) = (ss.after F level i).afterAll F level is := by
  simp [afterAll, after, itemsText, hasHalfAmong, Bool.or_assoc]

theorem indent_eq (level : Nat) (ss : StringStream) : indent level ss = ss.put (spaces level) := by
  induction level generalizing ss with
  | zero => simp [indent, spaces, StringStream.put]
  | succ level ih =>
    rw [indent, ih, StringStream.put_put]
    rfl

/-! ## The steps of the loop -/

section Text

variable {T : DumpCbor} {F : Formats}

/-- The type that the library gives for an item. -/
def itemType : Item → CborType
  | .int _ => .integer
  | .string .bytes _ => .byteString
  | .string .text _ => .textString
  | .container kind _ _ => containerType kind
  | .tag .. => .tag
  | .simple n =>
    if n = 20 ∨ n = 21 then .boolean
    else if n = 22 then .null
    else if n = 23 then .undefined
    else .simple
  | .float .half _ => .halfFloat
  | .float .single _ => .float
  | .float .double _ => .double

theorem getType_of_standsBefore {c : CborValue} {i : Item} {is : List Item} {after : Bytes}
    (hc : c.StandsBefore (i :: is) after) : getType c = itemType i := by
  obtain ⟨extent, h, r, r', r'', rfl, hread, -, -⟩ := hc.exists_elem
  cases i with
  | int v =>
    obtain ⟨rfl, -⟩ := hread
    unfold intHead
    split <;> rfl
  | string kind content =>
    obtain ⟨len, rfl, -⟩ := hread
    cases kind <;> rfl
  | container kind definite items =>
    obtain ⟨len, rfl⟩ := hread.exists_len
    cases kind <;> rfl
  | tag number content =>
    obtain ⟨rfl, -⟩ := hread
    rfl
  | simple n =>
    obtain ⟨rfl, -⟩ := hread
    rfl
  | float width bits =>
    obtain ⟨rfl, -⟩ := hread
    cases width <;> rfl

theorem itemType_eq_containerType {i : Item} {kind : ContainerKind}
    (htype : itemType i = containerType kind) :
    ∃ definite items, i = .container kind definite items := by
  cases i with
  | container kind' definite items =>
    obtain rfl : kind' = kind := by cases kind <;> cases kind' <;> first | rfl | cases htype
    exact ⟨definite, items, rfl⟩
  | int v => cases kind <;> cases htype
  | string kind' content => cases kind <;> cases kind' <;> cases htype
  | tag number content => cases kind <;> cases htype
  | simple n =>
    simp only [itemType] at htype
    cases kind <;> split_ifs at htype <;> cases htype
  | float width bits => cases kind <;> cases width <;> cases htype

theorem itemType_eq_tag {i : Item} : itemType i = .tag ↔ i.isTag = true := by
  cases i with
  | int v => simp [itemType, Item.isTag]
  | string kind content => cases kind <;> simp [itemType, Item.isTag]
  | container kind definite items => cases kind <;> simp [itemType, Item.isTag, containerType]
  | tag number content => simp [itemType, Item.isTag]
  | simple n =>
    simp only [itemType, Item.isTag]
    split_ifs <;> simp
  | float width bits => cases width <;> simp [itemType, Item.isTag]

theorem getType_ne_tag {c : CborValue} {i : Item} {is : List Item} {after : Bytes}
    (hc : c.StandsBefore (i :: is) after) (htag : i.isTag = false) : getType c ≠ .tag := by
  rw [getType_of_standsBefore hc, ne_eq, itemType_eq_tag, htag]
  simp

theorem advanceFixed_eq (hT : T.Documented) {extent : Extent} {h : Head} {r : Bytes}
    {c : CborValue} (hfixed : h.isFixed = true) (hpast : past extent h r = some c)
    (ss : StringStream) : advanceFixed T ss (.elem extent h r) = some (.noError, ss, c) := by
  have hmeets := hT.moves.advanceFixed (.elem extent h r) hfixed
  rw [Cursor.passFixed, hpast] at hmeets
  simp [advanceFixed, cborCheck, show T.advanceFixed _ = _ from hmeets]

/-- One step of the loop goes past an item that is no tag. -/
def PutOut (T : DumpCbor) (F : Formats) (c : CborValue) (i : Item) (is : List Item)
    (after : Bytes) : Prop :=
  ∃ c', c'.StandsBefore is after ∧
    ∀ ss level, Steps T F ss c level (.noError, ss.after F level i, c')

theorem PutOut.appends {c : CborValue} {i : Item} {is : List Item} {after : Bytes}
    (hc : c.StandsBefore (i :: is) after) (htag : i.isTag = false)
    (hputs : PutOut T F c i is after) :
    ∃ c', c'.StandsBefore is after ∧
      ∀ ss level, Appends T F level ss c (ss.after F level i) c' := by
  obtain ⟨c', hc', hsteps⟩ := hputs
  exact ⟨c', hc', fun ss level => .value (getType_ne_tag hc htag) (hsteps ss level)⟩

theorem steps_int (hT : T.Documented) {c : CborValue} {v : Int} {is : List Item} {after : Bytes}
    (hc : c.StandsBefore (.int v :: is) after) : PutOut T F c (.int v) is after := by
  have htype := getType_of_standsBefore hc
  obtain ⟨extent, h, r, r', r'', rfl, ⟨rfl, rfl⟩, his, hcloses⟩ := hc.exists_elem
  obtain ⟨c', hpast, hc'⟩ := past_standsBefore (intHead_isTag v) his hcloses
  have hget := hT.getInt64 extent (intHead v) r' v (int?_intHead v)
  refine ⟨c', hc', fun ss level => ⟨0, ?_⟩⟩
  simp [dumpValue, htype, itemType, cborCheck, hget, advanceFixed_eq hT (intHead_isFixed v) hpast,
    indent_eq, StringStream.putInteger, StringStream.after, itemText, hasHalf, StringStream.put]

theorem steps_simple (hT : T.Documented) {c : CborValue} {n : Nat} {is : List Item}
    {after : Bytes} (hc : c.StandsBefore (.simple n :: is) after) :
    PutOut T F c (.simple n) is after := by
  obtain ⟨extent, h, r, r', r'', rfl, ⟨rfl, rfl⟩, his, hcloses⟩ := hc.exists_elem
  obtain ⟨c', hpast, hc'⟩ := past_standsBefore (h := .simple n) rfl his hcloses
  have hadvance := advanceFixed_eq hT (h := .simple n) rfl hpast
  refine ⟨c', hc', fun ss level => ⟨0, ?_⟩⟩
  by_cases hboolean : n = 20 ∨ n = 21
  · simp [dumpValue, getType, Cursor.head?, hboolean, cborCheck,
      hT.getBoolean extent n r' hboolean, hadvance, indent_eq, StringStream.after, itemText,
      simpleText, hasHalf, StringStream.put]
  · by_cases hnull : n = 22
    · simp [dumpValue, getType, Cursor.head?, hnull, ← hnull ▸ hadvance, indent_eq,
        StringStream.after, itemText, simpleText, hasHalf, StringStream.put]
    · by_cases hundefined : n = 23
      · simp [dumpValue, getType, Cursor.head?, hundefined, ← hundefined ▸ hadvance, indent_eq,
          StringStream.after, itemText, simpleText, hasHalf, StringStream.put]
      · simp [dumpValue, getType, Cursor.head?, hboolean, hnull, hundefined, cborCheck,
          hT.getSimpleType, hadvance, indent_eq, StringStream.after, itemText, simpleText,
          hasHalf, StringStream.put]

theorem steps_float (hT : T.Documented) {c : CborValue} {width : FloatWidth} {bits : Nat}
    {is : List Item} {after : Bytes} (hc : c.StandsBefore (.float width bits :: is) after) :
    PutOut T F c (.float width bits) is after := by
  obtain ⟨extent, h, r, r', r'', rfl, ⟨rfl, rfl⟩, his, hcloses⟩ := hc.exists_elem
  obtain ⟨c', hpast, hc'⟩ := past_standsBefore (h := .float width.octets bits) rfl his hcloses
  have hadvance := advanceFixed_eq hT (h := .float width.octets bits) rfl hpast
  refine ⟨c', hc', fun ss level => ⟨0, ?_⟩⟩
  cases width with
  | half =>
    simp only [FloatWidth.octets] at hadvance
    simp [dumpValue, getType, Cursor.head?, FloatWidth.octets, cborCheck, hT.getHalfFloat, hadvance,
      indent_eq, StringStream.putInteger, integerText, StringStream.after, itemText, floatText,
      hasHalf, StringStream.put, StringStream.setHex]
  | single =>
    simp only [FloatWidth.octets] at hadvance
    simp [dumpValue, getType, Cursor.head?, FloatWidth.octets, cborCheck, hT.getFloat, hadvance,
      indent_eq, StringStream.after, itemText, floatText, hasHalf, StringStream.put]
  | double =>
    simp only [FloatWidth.octets] at hadvance
    simp [dumpValue, getType, Cursor.head?, FloatWidth.octets, cborCheck, hT.getDouble, hadvance,
      indent_eq, StringStream.after, itemText, floatText, hasHalf, StringStream.put]

theorem steps_string (hT : T.Documented) {c : CborValue} {kind : StringKind} {content : Bytes}
    {is : List Item} {after : Bytes} (hc : c.StandsBefore (.string kind content :: is) after) :
    PutOut T F c (.string kind content) is after := by
  obtain ⟨extent, h, r, r', r'', rfl, ⟨len, rfl, hread⟩, his, hcloses⟩ :=
    hc.exists_elem
  have htag : (kind.head len).isTag = false := by cases kind <;> rfl
  obtain ⟨c', hpast, hc'⟩ := past_standsBefore htag his hcloses
  refine ⟨c', hc', fun ss level => ⟨0, ?_⟩⟩
  cases kind with
  | bytes =>
    have hdup := hT.dupByteStringNext extent len r content r' c' hread hpast
    simp [dumpValue, getType, Cursor.head?, StringKind.head, cborCheck, hdup, indent_eq,
      StringStream.after, itemText, stringText, hasHalf, StringStream.put]
  | text =>
    have hdup := hT.dupTextStringNext extent len r content r' c' hread hpast
    simp [dumpValue, getType, Cursor.head?, StringKind.head, cborCheck, hdup, indent_eq,
      StringStream.after, itemText, stringText, hasHalf, StringStream.put]

/-- The step at a tag only puts out the number, and stays before an item. -/
theorem steps_tag (hT : T.Documented) {c : CborValue} {number : Nat} {content : Item}
    {is : List Item} {after : Bytes} (hc : c.StandsBefore (.tag number content :: is) after) :
    getType c = .tag ∧ ∃ c', c'.StandsBefore (content :: is) after ∧ ∀ ss level,
      Steps T F ss c level (.noError, ss.put (spaces level ++ tagText ss.hex number), c') := by
  obtain ⟨extent, h, r, r', r'', rfl, ⟨rfl, h', r₁, hread, hcontent⟩, his, hcloses⟩ :=
    hc.exists_elem
  have hpast := past_tag extent number hread hcontent
  have hadvance := advanceFixed_eq hT (h := .tag number) rfl hpast
  refine ⟨rfl, .elem extent h' r₁, ⟨r', r'', hcontent, his, hcloses⟩, fun ss level => ⟨0, ?_⟩⟩
  simp [dumpValue, getType, Cursor.head?, cborCheck, hT.getTag, hadvance, indent_eq,
    StringStream.putInteger, tagText, StringStream.put]

/-- A container that fits is entered, and left behind its last item. -/
theorem enters_of_fits (hT : T.Documented) {c : CborValue} {kind : ContainerKind}
    {definite : Bool} {items is : List Item} {after : Bytes}
    (hc : c.StandsBefore (.container kind definite items :: is) after)
    (hfits : definite = true → items.length < Cursor.maxCount) :
    ∃ recursed inner c', T.enterContainer c = (.noError, recursed) ∧
      recursed.StandsBefore items inner ∧
      T.leaveContainer c (.atEnd inner) = (.noError, c') ∧ c'.StandsBefore is after := by
  obtain ⟨extent, h, r, r', r'', rfl, hread, his, hcloses⟩ := hc.exists_elem
  have htag : h.isTag = false := hread.isTag_eq
  obtain ⟨recursed, henter, hrecursed⟩ := enter_standsBefore extent hread hfits
  obtain ⟨c', hpast, hc'⟩ := past_standsBefore htag his hcloses
  have hmeets := hT.moves.enterContainer (.elem extent h r) hread.isContainer
  have hleave := hT.leaveContainer extent h r r' hread.isContainer
  rw [henter] at hmeets
  rw [hpast] at hleave
  exact ⟨recursed, r', c', hmeets, hrecursed, hleave, hc'⟩

mutual

/-- The loop puts out the text of an item that fits, and goes on behind it. -/
theorem appends_of_fits (hT : T.Documented) : ∀ (i : Item) {c : CborValue} {is : List Item}
    {after : Bytes}, i.Fits → c.StandsBefore (i :: is) after →
    ∃ c', c'.StandsBefore is after ∧ ∀ ss level, Appends T F level ss c (ss.after F level i) c'
  | .int v, c, is, after, _, hc => (steps_int hT hc).appends hc rfl
  | .string kind content, c, is, after, _, hc => (steps_string hT hc).appends hc rfl
  | .simple n, c, is, after, _, hc => (steps_simple hT hc).appends hc rfl
  | .float width bits, c, is, after, _, hc => (steps_float hT hc).appends hc rfl
  | .tag number content, c, is, after, hfits, hc => by
    obtain ⟨htype, c₁, hc₁, hsteps⟩ := steps_tag (F := F) hT hc
    obtain ⟨c', hc', happends⟩ := appends_of_fits hT content hfits hc₁
    refine ⟨c', hc', fun ss level => .tagged htype (hsteps ss level) ?_⟩
    have hafter : (ss.put (spaces level ++ tagText ss.hex number)).after F level content
        = ss.after F level (.tag number content) := by
      simp [StringStream.after, itemText, hasHalf]
    exact hafter ▸ happends _ level
  | .container kind definite items, c, is, after, hfits, hc => by
    obtain ⟨recursed, inner, c', henter, hrecursed, hleave, hc'⟩ := enters_of_fits hT hc hfits.1
    have htype := getType_of_standsBefore hc
    refine PutOut.appends hc rfl ⟨c', hc', fun ss level => ?_⟩
    have hruns := runs_of_fits hT items hfits.2 hrecursed ((indent level ss).put (opening kind))
      (level + 1)
    have hafter : (indent level (((indent level ss).put (opening kind)).afterAll F (level + 1)
        items)).put (closing kind) = ss.after F level (.container kind definite items) := by
      simp [indent_eq, StringStream.afterAll, StringStream.after, itemText, hasHalf,
        StringStream.put]
    exact hafter ▸ steps_container htype henter hruns hleave

theorem runs_of_fits (hT : T.Documented) : ∀ (items : List Item) {c : CborValue} {after : Bytes},
    AllFit items → c.StandsBefore items after →
    ∀ ss level, Runs T F ss c level (.noError, ss.afterAll F level items, .atEnd after)
  | [], c, after, _, hc => fun ss level => by
    rw [StringStream.afterAll_nil, hc.eq_atEnd]
    exact runs_atEnd rfl
  | i :: is, c, after, hfits, hc => fun ss level => by
    obtain ⟨c', hc', happends⟩ := appends_of_fits hT i hfits.1 hc
    rw [StringStream.afterAll_cons]
    exact (happends ss level).runs (runs_of_fits hT is hfits.2 hc' _ level)

end

/-- The dump starts before the item. -/
theorem parserInit_standsBefore (hT : T.Documented) {i : Item} {bs rest : Bytes}
    (hread : i.Reads bs rest) : Cursor.StandsBefore (T.parserInit bs).2 [i] rest := by
  obtain ⟨c, hstart, hc⟩ := start_standsBefore hread
  have hmeets := hT.moves.parserInit bs
  rw [hstart] at hmeets
  rw [show T.parserInit bs = _ from hmeets]
  exact hc

/-- The dump of an item that fits ends, with the text of the item. -/
theorem exists_cborDump_eq (hT : T.Documented) {i : Item} {bs rest : Bytes}
    (hread : i.Reads bs rest) (hfits : i.Fits) :
    ∃ fuel, cborDump T F fuel bs = some (itemText F false 0 i) := by
  have hc := parserInit_standsBefore hT hread
  obtain ⟨fuel, hruns⟩ := runs_of_fits (F := F) hT [i] ⟨hfits, trivial⟩ hc .empty 0
  refine ⟨fuel, ?_⟩
  rw [cborDump, hruns]
  simp [StringStream.afterAll, StringStream.empty, itemsText]

end Text

end ZenohProxy
