import ZenohProxy.Codec.DumpText

/-!
# Items on their own and among others

A half float leaves `hex` set, so what is put out for an item can depend on the items before it.
It does not where every number that comes after a half float is one digit: these are the numbers
that are written alike in both bases. `compositional_iff` says so for the dump of any item.
-/

namespace ZenohProxy

open Cbor

/-! ## The texts in the two bases -/

/-- An integer is put out in the same way in both bases when it is one digit. -/
theorem integerText_eq_iff {v : Int} (hv : IsInt64 v) :
    integerText true v = integerText false v ↔ 0 ≤ v ∧ v ≤ 9 := by
  simp only [integerText, if_true, Bool.false_eq_true, if_false, hexadecimal, decimal]
  unfold IsInt64 at hv
  by_cases hneg : v < 0
  · -- a sign is no digit
    have hsign : 45 ∉ Numeral.numeral 16 (v % 2 ^ 64).toNat :=
      Numeral.notMem_numeral (by decide) (by decide) (by decide)
    rw [if_pos hneg]
    constructor
    · intro heq
      exact absurd (heq ▸ List.mem_cons_self) hsign
    · omega
  · rw [if_neg hneg]
    have habs : (v % 2 ^ 64).toNat = v.natAbs := by omega
    rw [habs, eq_comm, Numeral.numeral_eq_iff (by decide) (by decide) (by decide)]
    omega

theorem decimal_inj {v w : Int} : decimal v = decimal w ↔ v = w := by
  constructor
  · intro heq
    have hsign (n : Nat) : 45 ∉ Numeral.numeral 10 n :=
      Numeral.notMem_numeral (by decide) (by decide) (by decide)
    have hminus (s : Str) : 45 ∈ str "-" ++ s := List.mem_cons_self
    unfold decimal at heq
    split at heq <;> split at heq
    · have := (Numeral.numeral_inj (by decide) (by decide)).mp (List.append_cancel_left heq)
      omega
    · exact absurd (heq ▸ hminus _) (hsign _)
    · exact absurd (heq ▸ hminus _) (hsign _)
    · have := (Numeral.numeral_inj (by decide) (by decide)).mp heq
      omega
  · rintro rfl
    rfl

/-- No parenthesis stands in an integer. -/
theorem notMem_integerText (hex : Bool) (v : Int) : 41 ∉ integerText hex v := by
  have hnumeral {base n : Nat} (hlo : 1 < base) (hhi : base ≤ 16) :
      41 ∉ Numeral.numeral base n := Numeral.notMem_numeral hlo hhi (by decide)
  cases hex with
  | true => exact hnumeral (by decide) (by decide)
  | false =>
    simp only [integerText, Bool.false_eq_true, if_false, decimal]
    split
    · rw [List.mem_append, not_or]
      exact ⟨by decide, hnumeral (by decide) (by decide)⟩
    · exact hnumeral (by decide) (by decide)

theorem append_paren_inj {xs ys xs' ys' : Str} (hxs : 41 ∉ xs) (hys : 41 ∉ ys)
    (heq : xs ++ (str ")" ++ xs') = ys ++ (str ")" ++ ys')) : xs = ys := by
  have htake (zs zs' : Str) (hzs : 41 ∉ zs) :
      (zs ++ (str ")" ++ zs')).takeWhile (· ≠ 41) = zs := by
    rw [List.takeWhile_append_of_pos]
    · simp [str]
    · intro o ho
      simpa using fun hz : o = 41 => hzs (hz ▸ ho)
  rw [← htake xs xs' hxs, heq, htake ys ys' hys]

/-! ## What of an item shows -/

/-- The numbers that are put out as integers, and the half floats. -/
inductive Mark where
  | half
  | int (v : Int)
  | tag (number : Nat)
  deriving DecidableEq, Repr

/-- What is put out is one digit. -/
def Mark.OneDigit : Mark → Prop
  | .half => True
  | .int v => 0 ≤ v ∧ v ≤ 9
  | .tag number => 0 ≤ toInt64 number ∧ toInt64 number ≤ 9

def Mark.InRange : Mark → Prop
  | .int v => IsInt64 v
  | _ => True

mutual

/-- The marks of an item, in the order they are written. -/
def marks : Item → List Mark
  | .int v => [.int v]
  | .float .half _ => [.half]
  | .container _ _ items => marksAmong items
  | .tag number content => .tag number :: marks content
  | _ => []

def marksAmong : List Item → List Mark
  | [] => []
  | i :: is => marks i ++ marksAmong is

end

/-- Nothing shows of the items before, where `hex` says whether it is set: every integer is in
the range of `int64_t`, and one digit once `hex` is set. -/
structure Unaffected (hex : Bool) (ms : List Mark) : Prop where
  inRange : ∀ m ∈ ms, m.InRange
  hex : hex = true → ∀ m ∈ ms, m.OneDigit
  half : ms.Pairwise fun m m' => m = .half → m'.OneDigit

mutual

theorem hasHalf_iff : ∀ i : Item, hasHalf i = true ↔ .half ∈ marks i
  | .int v => by simp [hasHalf, marks]
  | .string kind content => by simp [hasHalf, marks]
  | .simple n => by simp [hasHalf, marks]
  | .float width bits => by cases width <;> simp [hasHalf, marks]
  | .tag number content => by simp [hasHalf, marks, hasHalf_iff content]
  | .container kind definite items => by simp [hasHalf, marks, hasHalfAmong_iff items]

theorem hasHalfAmong_iff : ∀ items : List Item, hasHalfAmong items = true ↔ .half ∈ marksAmong items
  | [] => by simp [hasHalfAmong, marksAmong]
  | i :: is => by simp [hasHalfAmong, marksAmong, hasHalf_iff i, hasHalfAmong_iff is]

end

theorem unaffected_nil (hex : Bool) : Unaffected hex [] :=
  ⟨by simp, by simp, List.Pairwise.nil⟩

theorem unaffected_half (hex : Bool) : Unaffected hex [.half] := by
  refine ⟨fun m hm => ?_, fun _ m hm => ?_, List.pairwise_singleton _ _⟩
  · obtain rfl := List.mem_singleton.mp hm
    trivial
  · obtain rfl := List.mem_singleton.mp hm
    trivial

/-- After the marks of an item `hex` is set when there was a half float. -/
theorem unaffected_append_iff {hex : Bool} {i : Item} {ms : List Mark} :
    Unaffected hex (marks i ++ ms) ↔
      Unaffected hex (marks i) ∧ Unaffected (hex || hasHalf i) ms := by
  constructor
  · intro h
    obtain ⟨hmarks, hms, hboth⟩ := List.pairwise_append.mp h.half
    refine ⟨⟨fun m hm => h.inRange m (List.mem_append_left _ hm),
      fun hhex m hm => h.hex hhex m (List.mem_append_left _ hm), hmarks⟩,
      ⟨fun m hm => h.inRange m (List.mem_append_right _ hm), fun hhex m hm => ?_, hms⟩⟩
    rcases Bool.or_eq_true_iff.mp hhex with hset | hhalf
    · exact h.hex hset m (List.mem_append_right _ hm)
    · exact hboth .half ((hasHalf_iff i).mp hhalf) m hm rfl
  · rintro ⟨hi, hms⟩
    refine ⟨fun m hm => ?_, fun hhex m hm => ?_, List.pairwise_append.mpr ⟨hi.half, hms.half, ?_⟩⟩
    · rcases List.mem_append.mp hm with hm | hm
      · exact hi.inRange m hm
      · exact hms.inRange m hm
    · rcases List.mem_append.mp hm with hm | hm
      · exact hi.hex hhex m hm
      · exact hms.hex (by simp [hhex]) m hm
    · rintro m hm m' hm' rfl
      exact hms.hex (by simp [(hasHalf_iff i).mpr hm]) m' hm'

theorem unaffected_tag {hex : Bool} {number : Nat} {ms : List Mark} (hms : Unaffected hex ms)
    (hnumber : hex = true → (Mark.tag number).OneDigit) : Unaffected hex (.tag number :: ms) := by
  refine ⟨fun m hm => ?_, fun hhex m hm => ?_, List.pairwise_cons.mpr ⟨?_, hms.half⟩⟩
  · rcases List.mem_cons.mp hm with rfl | hm
    · trivial
    · exact hms.inRange m hm
  · rcases List.mem_cons.mp hm with rfl | hm
    · exact hnumber hhex
    · exact hms.hex hhex m hm
  · intro m _ hhalf
    cases hhalf

theorem Unaffected.of_tag {hex : Bool} {number : Nat} {content : Item}
    (h : Unaffected hex (marks (.tag number content))) : Unaffected hex (marks content) := by
  rw [marks] at h
  exact ⟨fun m hm => h.inRange m (List.mem_cons_of_mem _ hm),
    fun hhex m hm => h.hex hhex m (List.mem_cons_of_mem _ hm), h.half.of_cons⟩

theorem toInt64_of_oneDigit {v : Int} (hv : 0 ≤ v ∧ v ≤ 9) : toInt64 v = v :=
  (toInt64_eq_iff v).mpr ⟨by omega, by omega⟩

mutual

/-- One digit is put out in the same way, so nothing shows of `hex`. -/
theorem itemText_hex (F : Formats) (level : Nat) : ∀ i : Item, (∀ m ∈ marks i, m.OneDigit) →
    itemText F true level i = itemText F false level i
  | .int v, h => by
    have hv : 0 ≤ v ∧ v ≤ 9 := h (.int v) (by simp [marks])
    rw [itemText, itemText, toInt64_of_oneDigit hv,
      (integerText_eq_iff ((toInt64_eq_iff v).mp (toInt64_of_oneDigit hv))).mpr hv]
  | .string kind content, _ => by rw [itemText, itemText]
  | .simple n, _ => by rw [itemText, itemText]
  | .float width bits, _ => by rw [itemText, itemText]
  | .tag number content, h => by
    have hnumber : 0 ≤ toInt64 number ∧ toInt64 number ≤ 9 := h (.tag number) (by simp [marks])
    have hcontent : ∀ m ∈ marks content, m.OneDigit := fun m hm => h m (by simp [marks, hm])
    rw [itemText, itemText, itemText_hex F level content hcontent, tagText, tagText,
      (integerText_eq_iff (isInt64_toInt64 number)).mpr hnumber]
  | .container kind definite items, h => by
    rw [itemText, itemText, itemsText_hex F (level + 1) items h]

theorem itemsText_hex (F : Formats) (level : Nat) : ∀ items : List Item,
    (∀ m ∈ marksAmong items, m.OneDigit) →
    itemsText F true level items = itemsText F false level items
  | [], _ => rfl
  | i :: is, h => by
    have hi : ∀ m ∈ marks i, m.OneDigit := fun m hm => h m (by simp [marksAmong, hm])
    have his : ∀ m ∈ marksAmong is, m.OneDigit := fun m hm => h m (by simp [marksAmong, hm])
    rw [itemsText, itemsText, itemText_hex F level i hi, Bool.true_or, Bool.false_or]
    cases hasHalf i with
    | true => rfl
    | false => rw [itemsText_hex F level is his]

end

theorem Unaffected.itemText_eq {hex : Bool} {i : Item} (h : Unaffected hex (marks i))
    (F : Formats) (level : Nat) : itemText F hex level i = itemText F false level i := by
  cases hex with
  | true => exact itemText_hex F level i (h.hex rfl)
  | false => rfl

/-! ## Items on their own and among others -/

section Compositional

variable {T : DumpCbor} {F : Formats}

/-- What is put out here is what a new stream would get. -/
def PutOutAlone (T : DumpCbor) (F : Formats) (ss : StringStream) (it : CborValue)
    (level : Nat) : Prop :=
  ∃ ss' alone it', Appends T F level ss it ss' it' ∧ Appends T F level .empty it alone it' ∧
    ss'.text = ss.text ++ alone.text

/-- The integer that stands here is put out in decimal. -/
def PutOutDecimal (T : DumpCbor) (F : Formats) (ss : StringStream) (it : CborValue)
    (level : Nat) : Prop :=
  ∀ v, it.head?.bind Head.int? = some v → ∃ ss' it', Appends T F level ss it ss' it' ∧
    ss'.text = ss.text ++ (spaces level ++ (decimal v ++ str ","))

/-- Every item that a call comes to is put out as on its own, and the integers in decimal. -/
def ComposesFrom (T : DumpCbor) (F : Formats) (ss : StringStream) (it : CborValue)
    (level : Nat) : Prop :=
  ∀ ss' it' level', Visits T F ss it level ss' it' level' →
    PutOutAlone T F ss' it' level' ∧ PutOutDecimal T F ss' it' level'

/-- The same for the dump of an octet string. -/
def Compositional (T : DumpCbor) (F : Formats) (bs : Bytes) : Prop :=
  ComposesFrom T F .empty (T.parserInit bs).2 0

theorem Visits.trans_appends {ss ss₁ ss' : StringStream} {it it₁ it' : CborValue}
    {level level' : Nat} (happends : Appends T F level ss it ss₁ it₁)
    (hvisits : Visits T F ss₁ it₁ level ss' it' level') :
    Visits T F ss it level ss' it' level' := by
  induction happends with
  | value _ hstep => exact .next hstep hvisits
  | tagged _ hstep _ ih => exact .next hstep (ih hvisits)

theorem Visits.not_atEnd {ss ss' : StringStream} {it it' : CborValue} {level level' : Nat}
    (hvisits : Visits T F ss it level ss' it' level') : atEnd it' = false := by
  induction hvisits with
  | here hend => exact hend
  | next _ _ ih => exact ih
  | inside _ _ _ ih => exact ih

theorem atEnd_of_standsBefore {c : CborValue} {i : Item} {is : List Item} {after : Bytes}
    (hc : c.StandsBefore (i :: is) after) : atEnd c = false := by
  obtain ⟨extent, h, r, r', r'', rfl, -⟩ := hc.exists_elem
  rfl

theorem head_of_standsBefore_int {c : CborValue} {v : Int} {is : List Item} {after : Bytes}
    (hc : c.StandsBefore (.int v :: is) after) : c.head?.bind Head.int? = some v := by
  obtain ⟨extent, h, r, r', r'', rfl, ⟨rfl, -⟩, -⟩ := hc.exists_elem
  exact int?_intHead v

theorem eq_int_of_head {c : CborValue} {i : Item} {v : Int} {is : List Item} {after : Bytes}
    (hc : c.StandsBefore (i :: is) after) (hv : c.head?.bind Head.int? = some v) : i = .int v := by
  obtain ⟨extent, h, r, r', r'', rfl, hread, -⟩ := hc.exists_elem
  exact hread.eq_int hv

theorem Appends.det {ss ss₁ ss₂ : StringStream} {it it₁ it₂ : CborValue} {level : Nat}
    (h₁ : Appends T F level ss it ss₁ it₁) (h₂ : Appends T F level ss it ss₂ it₂) :
    ss₁ = ss₂ ∧ it₁ = it₂ := by
  induction h₁ with
  | value htype hstep =>
    cases h₂ with
    | value _ hstep' => simpa using hstep.det hstep'
    | tagged htype' _ _ => exact absurd htype' htype
  | tagged htype hstep _ ih =>
    cases h₂ with
    | value htype' _ => exact absurd htype htype'
    | tagged _ hstep' hrest' =>
      have hsame := hstep.det hstep'
      simp only [Prod.mk.injEq, true_and] at hsame
      obtain ⟨rfl, rfl⟩ := hsame
      exact ih hrest'

/-- A container that is put out fits. -/
theorem fits_of_appends (hT : T.Documented) {ss ss' : StringStream} {c c' : CborValue}
    {level : Nat} {kind : ContainerKind} {definite : Bool} {items is : List Item} {after : Bytes}
    (hc : c.StandsBefore (.container kind definite items :: is) after)
    (happends : Appends T F level ss c ss' c') :
    definite = true → items.length < Cursor.maxCount := by
  by_contra hfits
  have htype := getType_of_standsBefore hc
  obtain ⟨extent, h, r, r', r'', rfl, hread, -⟩ := hc.exists_elem
  have herror := hT.moves.enterContainer (.elem extent h r) hread.isContainer
  rw [enter_eq_none hread hfits] at herror
  cases happends with
  | value _ hstep =>
    obtain ⟨recursed, -, -, henter, -⟩ := hstep.exists_runs htype
    exact herror (by rw [henter])
  | tagged htag _ _ =>
    rw [htype] at htag
    cases kind <;> cases htag

/-- Where an item that fits is put out as on its own, its text is the same with `hex` as set. -/
theorem PutOutAlone.itemText_eq (hT : T.Documented) {ss : StringStream} {c : CborValue}
    {level : Nat} {i : Item} {is : List Item} {after : Bytes}
    (halone : PutOutAlone T F ss c level) (hfits : i.Fits)
    (hc : c.StandsBefore (i :: is) after) :
    itemText F ss.hex level i = itemText F false level i := by
  obtain ⟨ss', alone, c₁, happends, hempty, htext⟩ := halone
  obtain ⟨c', -, hputs⟩ := appends_of_fits (F := F) hT i hfits hc
  obtain ⟨rfl, -⟩ := happends.det (hputs ss level)
  obtain ⟨rfl, -⟩ := hempty.det (hputs .empty level)
  exact List.append_cancel_left htext

theorem PutOutDecimal.unaffected_int (hT : T.Documented) {ss : StringStream} {c : CborValue}
    {level : Nat} {v : Int} {is : List Item} {after : Bytes}
    (halone : PutOutAlone T F ss c level) (hdecimal : PutOutDecimal T F ss c level)
    (hc : c.StandsBefore (.int v :: is) after) : Unaffected ss.hex [.int v] := by
  have hfits : (Item.int v).Fits := trivial
  have htext := halone.itemText_eq hT hfits hc
  obtain ⟨ss', c₁, happends, htext'⟩ := hdecimal v (head_of_standsBefore_int hc)
  obtain ⟨c', -, hputs⟩ := appends_of_fits (F := F) hT (.int v) hfits hc
  obtain ⟨rfl, -⟩ := happends.det (hputs ss level)
  have hprinted : integerText ss.hex (toInt64 v) = decimal v := by
    have := List.append_cancel_left htext'
    rw [itemText] at this
    exact List.append_cancel_right (List.append_cancel_left this)
  have hplain : integerText ss.hex (toInt64 v) = integerText false (toInt64 v) := by
    rw [itemText, itemText] at htext
    exact List.append_cancel_right (List.append_cancel_left htext)
  have hrange : toInt64 v = v := by
    rw [hplain] at hprinted
    exact decimal_inj.mp hprinted
  refine ⟨by simpa [Mark.InRange] using (toInt64_eq_iff v).mp hrange, fun hhex => ?_, by simp⟩
  rw [hhex, integerText_eq_iff (isInt64_toInt64 v), hrange] at hplain
  simpa [Mark.OneDigit] using hplain

theorem PutOutAlone.tag_oneDigit (hT : T.Documented) {ss : StringStream} {c : CborValue}
    {level : Nat} {number : Nat} {content : Item} {is : List Item} {after : Bytes}
    (halone : PutOutAlone T F ss c level) (hfits : content.Fits)
    (hc : c.StandsBefore (.tag number content :: is) after) (hhex : ss.hex = true) :
    (Mark.tag number).OneDigit := by
  have htext := halone.itemText_eq (i := .tag number content) hT hfits hc
  rw [hhex, itemText, itemText, tagText, tagText] at htext
  simp only [List.append_assoc, List.append_right_inj] at htext
  -- the number ends at the first parenthesis behind it
  have hnumber : integerText true (toInt64 number) = integerText false (toInt64 number) :=
    append_paren_inj (notMem_integerText _ _) (notMem_integerText _ _) htext
  exact (integerText_eq_iff (isInt64_toInt64 number)).mp hnumber

mutual

/-- Where all goes well from an item on, it fits and shows nothing of the items before it. -/
theorem unaffected_of_composes (hT : T.Documented) : ∀ (i : Item) {ss : StringStream}
    {c : CborValue} {level : Nat} {is : List Item} {after : Bytes},
    c.StandsBefore (i :: is) after → ComposesFrom T F ss c level →
    i.Fits ∧ Unaffected ss.hex (marks i)
  | .int v, ss, c, level, is, after, hc, h => by
    obtain ⟨halone, hdecimal⟩ := h ss c level (.here (atEnd_of_standsBefore hc))
    exact ⟨trivial, hdecimal.unaffected_int hT halone hc⟩
  | .string kind content, ss, c, level, is, after, hc, h => ⟨trivial, unaffected_nil ss.hex⟩
  | .simple n, ss, c, level, is, after, hc, h => ⟨trivial, unaffected_nil ss.hex⟩
  | .float width bits, ss, c, level, is, after, hc, h => by
    refine ⟨trivial, ?_⟩
    cases width with
    | half => exact unaffected_half ss.hex
    | single => exact unaffected_nil ss.hex
    | double => exact unaffected_nil ss.hex
  | .tag number content, ss, c, level, is, after, hc, h => by
    obtain ⟨halone, -⟩ := h ss c level (.here (atEnd_of_standsBefore hc))
    obtain ⟨-, c₁, hc₁, hsteps⟩ := steps_tag (F := F) hT hc
    obtain ⟨hfits, hcontent⟩ := unaffected_of_composes hT content hc₁
      fun ss' it' level' hvisits => h ss' it' level' (.next (hsteps ss level) hvisits)
    refine ⟨hfits, unaffected_tag hcontent fun hhex => ?_⟩
    exact halone.tag_oneDigit hT hfits hc hhex
  | .container kind definite items, ss, c, level, is, after, hc, h => by
    obtain ⟨⟨ss', alone, c₁, happends, -⟩, -⟩ := h ss c level (.here (atEnd_of_standsBefore hc))
    have htype := getType_of_standsBefore hc
    have hown := fits_of_appends hT hc happends
    obtain ⟨recursed, inner, c', henter, hrecursed, -⟩ := enters_of_fits hT hc hown
    obtain ⟨hfits, hitems⟩ := unaffectedAmong_of_composes hT items hrecursed
      fun ss' it' level' hvisits => h ss' it' level' (.inside htype henter hvisits)
    refine ⟨⟨hown, hfits⟩, ?_⟩
    rw [marks]
    simpa [indent_eq] using hitems

theorem unaffectedAmong_of_composes (hT : T.Documented) : ∀ (items : List Item)
    {ss : StringStream} {c : CborValue} {level : Nat} {after : Bytes},
    c.StandsBefore items after → ComposesFrom T F ss c level →
    AllFit items ∧ Unaffected ss.hex (marksAmong items)
  | [], ss, c, level, after, hc, h => ⟨trivial, unaffected_nil ss.hex⟩
  | i :: is, ss, c, level, after, hc, h => by
    obtain ⟨hfits, hi⟩ := unaffected_of_composes hT i hc h
    obtain ⟨c', hc', happends⟩ := appends_of_fits (F := F) hT i hfits hc
    obtain ⟨hallFit, his⟩ := unaffectedAmong_of_composes hT is hc'
      fun ss' it' level' hvisits => h ss' it' level' (hvisits.trans_appends (happends ss level))
    exact ⟨⟨hfits, hallFit⟩, unaffected_append_iff.mpr ⟨hi, his⟩⟩

end

/-- The iterator stands before items that fit and show nothing of the items before them. -/
def StandsWell (ss : StringStream) (c : CborValue) : Prop :=
  ∃ items after, c.StandsBefore items after ∧ AllFit items ∧
    Unaffected ss.hex (marksAmong items)

theorem StandsWell.exists_cons {ss : StringStream} {c : CborValue} (h : StandsWell ss c)
    (hend : atEnd c = false) :
    ∃ i is after, c.StandsBefore (i :: is) after ∧ i.Fits ∧ AllFit is ∧
      Unaffected ss.hex (marks i) ∧ Unaffected (ss.hex || hasHalf i) (marksAmong is) := by
  obtain ⟨items, after, hc, hfits, hitems⟩ := h
  cases items with
  | nil =>
    rw [hc.eq_atEnd] at hend
    cases hend
  | cons i is =>
    obtain ⟨hi, his⟩ := unaffected_append_iff.mp hitems
    exact ⟨i, is, after, hc, hfits.1, hfits.2, hi, his⟩

/-- One step of the loop keeps it so. -/
theorem StandsWell.steps (hT : T.Documented) {ss ss' : StringStream} {c c' : CborValue}
    {level : Nat} (h : StandsWell ss c) (hstep : Steps T F ss c level (.noError, ss', c')) :
    StandsWell ss' c' := by
  obtain ⟨i, is, after, hc, hfits, hall, hi, his⟩ := h.exists_cons hstep.not_atEnd
  cases htag : i.isTag with
  | true =>
    obtain ⟨number, content, rfl⟩ := Item.isTag_iff.mp htag
    obtain ⟨-, c₁, hc₁, hsteps⟩ := steps_tag (F := F) hT hc
    obtain ⟨rfl, rfl⟩ : ss' = _ ∧ c' = _ := by simpa using hstep.det (hsteps ss level)
    -- the marks of the content are those behind the tag
    have hcontent : Unaffected ss.hex (marks content) := hi.of_tag
    exact ⟨content :: is, after, hc₁, ⟨hfits, hall⟩, unaffected_append_iff.mpr ⟨hcontent, his⟩⟩
  | false =>
    obtain ⟨c₁, hc₁, happends⟩ := appends_of_fits (F := F) hT i hfits hc
    obtain ⟨rfl, rfl⟩ := Appends.det (.value (getType_ne_tag hc htag) hstep) (happends ss level)
    exact ⟨is, after, hc₁, hall, his⟩

/-- So does the way into a container. -/
theorem StandsWell.inside (hT : T.Documented) {ss : StringStream} {c recursed : CborValue}
    {level : Nat} {kind : ContainerKind} (h : StandsWell ss c)
    (htype : getType c = containerType kind)
    (henter : T.enterContainer c = (.noError, recursed)) :
    StandsWell ((indent level ss).put (opening kind)) recursed := by
  have hend : atEnd c = false := by
    cases c with
    | atEnd rest => cases kind <;> cases htype
    | elem extent h r => rfl
    | invalid => rfl
  obtain ⟨i, is, after, hc, hfits, hall, hi, his⟩ := h.exists_cons hend
  obtain ⟨definite, items, rfl⟩ := itemType_eq_containerType
    ((getType_of_standsBefore hc).symm.trans htype)
  obtain ⟨recursed', inner, c', henter', hrecursed, -⟩ := enters_of_fits hT hc hfits.1
  obtain rfl : recursed = recursed' := by simpa using henter.symm.trans henter'
  refine ⟨items, inner, hrecursed, hfits.2, ?_⟩
  rw [marks] at hi
  simpa [indent_eq] using hi

theorem StandsWell.visits (hT : T.Documented) {ss ss' : StringStream} {c c' : CborValue}
    {level level' : Nat} (h : StandsWell ss c) (hvisits : Visits T F ss c level ss' c' level') :
    StandsWell ss' c' := by
  induction hvisits with
  | here _ => exact h
  | next hstep _ ih => exact ih (h.steps hT hstep)
  | inside htype henter _ ih => exact ih (h.inside hT htype henter)

theorem StandsWell.composes (hT : T.Documented) {ss : StringStream} {c : CborValue}
    {level : Nat} (h : StandsWell ss c) : ComposesFrom T F ss c level := by
  intro ss' c' level' hvisits
  obtain ⟨i, is, after, hc, hfits, -, hi, -⟩ :=
    (h.visits hT hvisits).exists_cons hvisits.not_atEnd
  obtain ⟨c₁, -, happends⟩ := appends_of_fits (F := F) hT i hfits hc
  have htext := hi.itemText_eq F level'
  refine ⟨⟨_, _, c₁, happends ss' level', happends .empty level', ?_⟩, fun v hv => ?_⟩
  · simp [StringStream.after, StringStream.empty, htext]
  · obtain rfl := eq_int_of_head hc hv
    refine ⟨_, c₁, happends ss' level', ?_⟩
    have hrange : toInt64 v = v := (toInt64_eq_iff v).mpr (hi.inRange (.int v) (by simp [marks]))
    rw [StringStream.after, htext, itemText, hrange]
    rfl

theorem compositional_iff_unaffected (hT : T.Documented) {i : Item} {bs rest : Bytes}
    (hread : i.Reads bs rest) :
    Compositional T F bs ↔ i.Fits ∧ Unaffected false (marks i) := by
  have hc := parserInit_standsBefore hT hread
  constructor
  · exact unaffected_of_composes hT i hc
  · rintro ⟨hfits, hmarks⟩
    refine StandsWell.composes hT ⟨[i], rest, hc, ⟨hfits, trivial⟩, ?_⟩
    simpa [marksAmong, StringStream.empty] using hmarks

theorem unaffected_false_iff {ms : List Mark} :
    Unaffected false ms ↔ (∀ v, .int v ∈ ms → IsInt64 v) ∧
      ms.Pairwise fun m m' => m = .half → m'.OneDigit := by
  constructor
  · intro h
    exact ⟨fun v hv => h.inRange (.int v) hv, h.half⟩
  · rintro ⟨hrange, hhalf⟩
    refine ⟨fun m hm => ?_, by simp, hhalf⟩
    cases m with
    | int v => exact hrange v hm
    | half => trivial
    | tag number => trivial

/-- **The dump is compositional** on the items whose integers are in the range of `int64_t`, and
of which every integer and every tag is one digit once a half float went before. -/
theorem compositional_iff (hT : T.Documented) {i : Item} {bs rest : Bytes}
    (hread : i.Reads bs rest) :
    Compositional T F bs ↔ i.Fits ∧ (∀ v, .int v ∈ marks i → IsInt64 v) ∧
      (marks i).Pairwise fun m m' => m = .half → m'.OneDigit := by
  rw [compositional_iff_unaffected hT hread, unaffected_false_iff]

end Compositional

/-- Texts for items without floats and doubles. -/
def sizeFormats : Formats := ⟨fun n => str "[" ++ (decimal n ++ str "]"), fun _ => [], fun _ => []⟩

theorem compositional_half_digit :
    Compositional (DumpCbor.reference (.other 1, .invalid)) sizeFormats
      [0x83, 0x18, 0x2A, 0xF9, 0x3C, 0x00, 0x05] := by
  have hread : Item.Reads (.container .array true [.int 42, .float .half 0x3C00, .int 5])
      [0x83, 0x18, 0x2A, 0xF9, 0x3C, 0x00, 0x05] [] :=
    ⟨.array (some 3), [0x18, 0x2A, 0xF9, 0x3C, 0x00, 0x05], by decide, 3, rfl, rfl,
      .uint 42, [0xF9, 0x3C, 0x00, 0x05], _, by decide, ⟨by decide, rfl⟩,
      .float 2 0x3C00, [0x05], _, by decide, ⟨rfl, rfl⟩,
      .uint 5, [], _, by decide, ⟨by decide, rfl⟩, rfl⟩
  refine (compositional_iff (DumpCbor.reference_documented _) hread).mpr ⟨⟨?_, ?_⟩, ?_, ?_⟩
  · decide
  · exact ⟨trivial, trivial, trivial, trivial⟩
  · simp [marks, marksAmong, IsInt64]
  · simp [marks, marksAmong, Mark.OneDigit]

/-- Behind a half float ten is put out as `a`. -/
theorem not_compositional_half_ten :
    Item.Reads (.container .array true [.float .half 0x3C00, .int 10])
      [0x82, 0xF9, 0x3C, 0x00, 0x0A] [] ∧
    ¬ Compositional (DumpCbor.reference (.other 1, .invalid)) sizeFormats
      [0x82, 0xF9, 0x3C, 0x00, 0x0A] := by
  have hread : Item.Reads (.container .array true [.float .half 0x3C00, .int 10])
      [0x82, 0xF9, 0x3C, 0x00, 0x0A] [] :=
    ⟨.array (some 2), [0xF9, 0x3C, 0x00, 0x0A], by decide, 2, rfl, rfl,
      .float 2 0x3C00, [0x0A], _, by decide, ⟨rfl, rfl⟩,
      .uint 10, [], _, by decide, ⟨by decide, rfl⟩, rfl⟩
  refine ⟨hread, fun hcomposes => ?_⟩
  have hmarks := ((compositional_iff_unaffected (DumpCbor.reference_documented _) hread).mp
    hcomposes).2.half
  simp [marks, marksAmong, Mark.OneDigit] at hmarks

end ZenohProxy
