import ZenohProxy.Codec.Calls

/-!
# Copies of strings that fail

A string member has the library copy the string to a buffer it allocates, logs an error, and
then takes over and frees the buffer all the same. A copy fails where the string is not
complete or where there is no memory for it, so that here `TinyCbor.Reads` is given the
lengths there is memory for. `member(bytes &)` has the length of the string calculated first,
which leaves only memory to fail; `member(string &)` does not.

`failed_copy_unused_iff` says on which octets no failed copy is used. Where the string stands
is known as long as the members before it keep to the library's contract (`arrival`); where
they do not, a library may end up at any string.
-/

namespace ZenohProxy

open Cbor (Cursor StringKind)
open CborDeserializer Traced

/-- What the documentation says of the functions a decode calls, with memory for a copy of
the lengths in `mem` only. -/
structure TinyCbor.Reads (mem : Nat → Bool) (T : TinyCbor) : Prop extends T.Moves where
  dupByteString : ∀ c : CborValue, isByteString c →
    MeetsString (T.dupByteString c) ((c.string? .bytes).filter (mem ·.length))
  dupTextString : ∀ c : CborValue, isTextString c →
    MeetsString (T.dupTextString c) ((c.string? .text).filter (mem ·.length))

/-- With memory for everything this is what is documented. -/
theorem TinyCbor.Documented.reads {T : TinyCbor} (hT : T.Documented) :
    T.Reads fun _ => true where
  toMoves := hT.moves
  dupByteString c hc := by
    rw [show (c.string? .bytes).filter (fun _ => true) = c.string? .bytes by
      cases c.string? .bytes <;> rfl]
    exact hT.dupByteString c hc
  dupTextString c hc := by
    rw [show (c.string? .text).filter (fun _ => true) = c.string? .text by
      cases c.string? .text <;> rfl]
    exact hT.dupTextString c hc

/-- `begin().member(t).end()` on the value of a message, for a text. -/
def reflectString {R : Type} [Reflector R] (t : Str) (r : R) : Str × R :=
  let (t, r) := Reflector.memberString t (Reflector.begin_ r)
  (t, Reflector.end_ r)

def reflectBytes {R : Type} [Reflector R] (t : Bytes) (r : R) : Bytes × R :=
  let (t, r) := Reflector.memberBytes t (Reflector.begin_ r)
  (t, Reflector.end_ r)

/-- A copy that failed leaves the output argument unchanged, its buffer is not touched, and
the message does not succeed. -/
def ReaderCall.Unused (success : Bool) : ReaderCall → Prop
  | .dup err before after strayed =>
    err ≠ .noError → after = before ∧ strayed = false ∧ success = false
  | _ => True

/-- No copy that failed is used, whatever library it is and whatever the deserializer and the
message held before. -/
def CopyFailuresUnused {M : Type} (mem : Nat → Bool)
    (decode : (T : TinyCbor) → M → Traced T → M × Traced T) (capacity : Nat) (bs : Bytes) :
    Prop :=
  ∀ T : TinyCbor, T.Reads mem → ∀ d : CborDeserializer T, d.capacity = capacity → ∀ m : M,
    ∀ call ∈ (decode T m (Traced.of (d.fromBytes bs))).2.calls,
      call.Unused (decode T m (Traced.of (d.fromBytes bs))).2.reader.success

/-- A member of this kind does not get a failed copy here. -/
def Copies (mem : Nat → Bool) : StringKind → Cursor → Prop
  | .text, c => isTextString c → ((c.string? .text).filter (mem ·.length)).isSome
  | .bytes, c => ∀ s, c.string? .bytes = some s → mem s.length

/-- What is known of the way to the `n`-th element: nothing, where an element before it is not
of fixed size in a container, and otherwise where the last move leads, if anywhere. -/
def arrival (bs : Bytes) : Nat → Option (Option Cursor)
  | 0 => (Cursor.start bs).bind fun root => if root.isContainer then some root.enter else none
  | n + 1 => (Cursor.afterFixed bs n).bind fun c => if c.isFixed then some c.passFixed else none

/-- Every string of this kind can be copied, or it is known where the `n`-th element stands
and that one can be. -/
def CopyKnown (mem : Nat → Bool) (kind : StringKind) (bs : Bytes) (n : Nat) : Prop :=
  (∀ c, Copies mem kind c) ∨
    ∃ move, arrival bs n = some move ∧ ∀ c, move = some c → Copies mem kind c

/-! ## The string members -/

theorem MeetsString.noError_iff {a : CborError × Temp} {content : Option Bytes}
    (h : MeetsString a content) : a.1 = .noError ↔ content.isSome := by
  cases content with
  | none => simpa [MeetsString] using h.1
  | some s => simp [show a = (.noError, ⟨true, s⟩) from h]

theorem MeetsString.invalid {a : CborError × Temp} {content : Option Bytes}
    (h : MeetsString a content) (herr : a.1 ≠ .noError) : a.2.valid = false := by
  cases content with
  | none => exact h.2
  | some s => exact absurd (h.noError_iff.mpr rfl) herr

section

variable {mem : Nat → Bool} {T : TinyCbor} {success : Bool}

/-- Where the buffer is read and freed whatever the answer, only a copy that is made will
do. -/
theorem unused_dup_iff {a : CborError × Temp} {content : Option Bytes}
    (h : MeetsString a content) (before after : Bytes) :
    (ReaderCall.dup a.1 before after !a.2.valid).Unused success ↔ content.isSome := by
  rw [← h.noError_iff]
  constructor
  · intro hunused
    by_contra herr
    have hstrayed := (hunused herr).2.1
    rw [h.invalid herr] at hstrayed
    cases hstrayed
  · intro hno herr
    exact absurd hno herr

theorem unused_append_iff {calls dups : List ReaderCall} {c : CborValue}
    (hcalls : ∀ call ∈ calls, call.Unused success) :
    (∀ call ∈ calls ++ (dups ++ [.advance c]), call.Unused success) ↔
      ∀ call ∈ dups, call.Unused success := by
  constructor
  · intro h call hcall
    exact h call (List.mem_append_right _ (List.mem_append_left _ hcall))
  · intro h call hcall
    rcases List.mem_append.mp hcall with hcall | hcall
    · exact hcalls call hcall
    · rcases List.mem_append.mp hcall with hcall | hcall
      · exact h call hcall
      · obtain rfl := List.mem_singleton.mp hcall
        trivial

variable (hT : T.Reads mem) {t : Traced T}
include hT

theorem unused_memberString (hcalls : ∀ call ∈ t.calls, call.Unused success) (s : Str) :
    (∀ call ∈ (t.memberString s).2.calls, call.Unused success) ↔
      (t.reader.err = .noError → Copies mem .text t.reader.it) := by
  rw [calls_memberString, unused_append_iff hcalls]
  by_cases hdup : t.reader.err = .noError ∧ isTextString t.reader.it
  · obtain ⟨herr, htext⟩ := hdup
    rw [if_pos ⟨herr, htext⟩, List.forall_mem_singleton, unused_dup_iff (hT.dupTextString _ htext)]
    exact ⟨fun h _ _ => h, fun h => h herr htext⟩
  · rw [if_neg hdup]
    simp only [List.not_mem_nil, false_implies, implies_true, true_iff]
    exact fun herr htext => absurd ⟨herr, htext⟩ hdup

theorem unused_memberBytes (hcalls : ∀ call ∈ t.calls, call.Unused success) (s : Bytes) :
    (∀ call ∈ (t.memberBytes s).2.calls, call.Unused success) ↔
      (t.reader.err = .noError → Copies mem .bytes t.reader.it) := by
  rw [calls_memberBytes, unused_append_iff hcalls]
  by_cases hdup : t.reader.err = .noError ∧ isByteString t.reader.it ∧
      T.calculateStringLength t.reader.it = .noError
  · obtain ⟨herr, hbytes, hlength⟩ := hdup
    -- the length was calculated, so the string is complete
    obtain ⟨content, hcontent⟩ := Option.isSome_iff_exists.mp
      ((calculateStringLength_iff hT.toMoves hbytes).mp hlength)
    rw [if_pos ⟨herr, hbytes, hlength⟩, List.forall_mem_singleton,
      unused_dup_iff (hT.dupByteString _ hbytes), hcontent]
    simp [Copies, herr, hcontent]
  · rw [if_neg hdup]
    simp only [List.not_mem_nil, false_implies, implies_true, true_iff]
    intro herr content hcontent
    have hbytes := isByteString_of_string? hcontent
    have hlength := (calculateStringLength_iff hT.toMoves hbytes).mpr (by rw [hcontent]; rfl)
    exact absurd ⟨herr, hbytes, hlength⟩ hdup

end

/-! ## Arriving at the string -/

theorem afterFixed_eq_join (bs : Bytes) (n : Nat) :
    Cursor.afterFixed bs n = (arrival bs n).join := by
  cases n with
  | zero =>
    rw [Cursor.afterFixed, Cursor.opened, arrival]
    cases Cursor.start bs with
    | none => rfl
    | some root =>
      simp only [Option.bind_some]
      split <;> rfl
  | succ n =>
    rw [Cursor.afterFixed, arrival]
    cases Cursor.afterFixed bs n with
    | none => rfl
    | some c =>
      simp only [Option.bind_some, Cursor.stepFixed]
      split <;> rfl

section

variable {T : TinyCbor} (hT : T.Moves) {d d' : CborDeserializer T} {bs : Bytes} {n : Nat}
  {move : Option Cursor}
include hT

theorem reached_of_arrival_zero (d : CborDeserializer T) (bs : Bytes)
    (harrival : arrival (bs.take d.capacity) 0 = some move) :
    (d.fromBytes bs).begin_.Reached move := by
  obtain ⟨root, hstart, henter⟩ := Option.bind_eq_some_iff.mp harrival
  split at henter
  · rename_i hcontainer
    rw [← Option.some.inj henter]
    exact begin_reached hT (d.fromBytes bs) hstart hcontainer
  · cases henter

omit hT in
theorem reached_of_arrival_succ (h : d.Follows bs n)
    (hmember : d.it.isFixed → d'.Reached d.it.passFixed)
    (harrival : arrival bs (n + 1) = some move) : d'.Reached move := by
  obtain ⟨c, hc, hpass⟩ := Option.bind_eq_some_iff.mp harrival
  obtain ⟨-, hit⟩ := reached_some.mp (h c hc)
  rw [hit] at hmember
  split at hpass
  · rename_i hfixed
    rw [← Option.some.inj hpass]
    exact hmember hfixed
  · cases hpass

end

/-! ## A library that ends up at a string of its choice -/

/-- Where nothing is known, the library reports no error and stands at `wild`. -/
def TinyCbor.strayingTo (mem : Nat → Bool) (wild : Cursor) : TinyCbor :=
  { TinyCbor.reference (.noError, wild) with
    dupByteString := fun c => answerString ((c.string? .bytes).filter (mem ·.length))
    dupTextString := fun c => answerString ((c.string? .text).filter (mem ·.length)) }

theorem TinyCbor.strayingTo_reads (mem : Nat → Bool) (wild : Cursor) :
    (strayingTo mem wild).Reads mem where
  parserInit := (reference_documented (.noError, wild)).parserInit
  enterContainer := (reference_documented (.noError, wild)).enterContainer
  advanceFixed := (reference_documented (.noError, wild)).advanceFixed
  advance := (reference_documented (.noError, wild)).advance
  calculateStringLength := (reference_documented (.noError, wild)).calculateStringLength
  dupByteString _ _ := meetsString_answerString _
  dupTextString _ _ := meetsString_answerString _

section

variable {mem : Nat → Bool} {wild : Cursor}

/-- What the straying library answers to a move of which this much is known. -/
def strays (wild : Cursor) (arrived : Option (Option Cursor)) : CborError × CborValue :=
  (arrived.map answer).getD (.noError, wild)

theorem strays_begin (d : CborDeserializer (.strayingTo mem wild)) (bs : Bytes) :
    ((d.fromBytes bs).begin_.err, (d.fromBytes bs).begin_.it)
      = strays wild (arrival (bs.take d.capacity) 0) := by
  show (TinyCbor.strayingTo mem wild).enterContainer
    (answer (Cursor.start (bs.take d.capacity))).2 = _
  rw [arrival]
  cases Cursor.start (bs.take d.capacity) with
  -- the parser's error is not looked at, and what it leaves is entered
  | none => rfl
  | some root =>
    show (if root.isContainer then answer root.enter else (.noError, wild))
      = strays wild (if root.isContainer then some root.enter else none)
    split <;> rfl

theorem strays_member {d : CborDeserializer (.strayingTo mem wild)} {bs : Bytes} {n : Nat}
    (hd : (d.err, d.it) = strays wild (arrival bs n)) (hwild : wild.isFixed = false) :
    (TinyCbor.strayingTo mem wild).advanceFixed d.it = strays wild (arrival bs (n + 1)) := by
  have hit : d.it = (strays wild (arrival bs n)).2 := congrArg Prod.snd hd
  show (if d.it.isFixed then answer d.it.passFixed else (.noError, wild)) = _
  rw [hit, arrival, afterFixed_eq_join]
  match arrival bs n with
  -- from where it has strayed to it strays again
  | none =>
    show (if wild.isFixed then answer wild.passFixed else (.noError, wild)) = (.noError, wild)
    rw [hwild]
    rfl
  -- after an error it stands nowhere
  | some none => rfl
  | some (some c) =>
    show (if c.isFixed then answer c.passFixed else (.noError, wild))
      = strays wild (if c.isFixed then some c.passFixed else none)
    split <;> rfl

end

/-! ## Exactly when no failed copy is used -/

section

variable {mem : Nat → Bool} {capacity : Nat} {bs : Bytes} {n : Nat}

theorem copies_of_isFixed {c : Cursor} (hfixed : c.isFixed) (kind : StringKind) :
    Copies mem kind c := by
  cases c with
  | elem extent h rest =>
    cases kind with
    | text =>
      intro htext
      cases h with
      | text len => cases hfixed
      | _ => cases htext
    | bytes =>
      intro s hs
      have hbytes := isByteString_of_string? hs
      cases h with
      | bytes len => cases hfixed
      | _ => cases hbytes
  | _ => cases hfixed

/-- The rule for a decode: `walk` is its way to the string, and what it calls there is in
order where `walk` has failed or ends at a string that can be copied. -/
theorem copyFailuresUnused_iff_of_walk {M : Type} [Nonempty M] {kind : StringKind}
    {decode : (T : TinyCbor) → M → Traced T → M × Traced T}
    (walk : (T : TinyCbor) → M → CborDeserializer T → CborDeserializer T)
    (hunused : ∀ (T : TinyCbor), T.Reads mem → ∀ (m : M) (d : CborDeserializer T),
      (∀ call ∈ (decode T m (Traced.of (d.fromBytes bs))).2.calls,
        call.Unused (decode T m (Traced.of (d.fromBytes bs))).2.reader.success) ↔
      ((walk T m d).err = .noError → Copies mem kind (walk T m d).it))
    (hreached : ∀ (T : TinyCbor), T.Moves → ∀ (m : M) (d : CborDeserializer T),
      d.capacity = capacity → ∀ move, arrival (bs.take capacity) n = some move →
        (walk T m d).Reached move)
    (hstrays : ∀ wild : Cursor, wild.isFixed = false → ∀ (m : M)
      (d : CborDeserializer (.strayingTo mem wild)), d.capacity = capacity →
        ((walk _ m d).err, (walk _ m d).it) = strays wild (arrival (bs.take capacity) n)) :
    CopyFailuresUnused mem decode capacity bs ↔ CopyKnown mem kind (bs.take capacity) n := by
  constructor
  · intro hno
    by_cases hall : ∀ c, Copies mem kind c
    · exact .inl hall
    · -- a library that strays to a string that cannot be copied
      obtain ⟨wild, hwild⟩ := not_forall.mp hall
      have hfixed : wild.isFixed = false :=
        Bool.eq_false_iff.mpr fun hfixed => hwild (copies_of_isFixed hfixed kind)
      obtain ⟨m⟩ := ‹Nonempty M›
      have hT := TinyCbor.strayingTo_reads mem wild
      let d := CborDeserializer.new (.strayingTo mem wild) capacity
      have hcopies := (hunused _ hT m d).mp (hno _ hT d rfl m)
      have hend := hstrays wild hfixed m d rfl
      right
      cases harrival : arrival (bs.take capacity) n with
      | none =>
        rw [harrival] at hend
        obtain ⟨herr, hit⟩ := Prod.mk.inj hend
        rw [hit] at hcopies
        exact absurd (hcopies herr) hwild
      | some move =>
        refine ⟨move, rfl, fun c hc => ?_⟩
        subst hc
        obtain ⟨herr, hit⟩ := reached_some.mp (hreached _ hT.toMoves m d rfl _ harrival)
        rw [hit] at hcopies
        exact hcopies herr
  · intro hknown T hT d hcapacity m
    refine (hunused T hT m d).mpr fun herr => ?_
    rcases hknown with hall | ⟨move, harrival, hcopies⟩
    · exact hall _
    · have hend := hreached T hT.toMoves m d hcapacity move harrival
      cases move with
      | none => exact absurd herr hend
      | some c =>
        rw [(reached_some.mp hend).2]
        exact hcopies c rfl

/-! The calls before the string do not copy. -/

section

variable {T : TinyCbor} {success : Bool}

theorem unused_begin (d : CborDeserializer T) :
    ∀ call ∈ (Traced.of d).begin_.calls, call.Unused success := by
  simp [Traced.begin_, Traced.of, ReaderCall.Unused]

variable {t : Traced T} (hcalls : ∀ call ∈ t.calls, call.Unused success)
include hcalls

theorem unused_memberConst (v : Int) :
    ∀ call ∈ (t.memberConst v).calls, call.Unused success := by
  simpa [Traced.memberConst, or_imp, forall_and, ReaderCall.Unused] using hcalls

theorem unused_memberInt (v : Int) :
    ∀ call ∈ (t.memberInt v).2.calls, call.Unused success := by
  simpa [Traced.memberInt, or_imp, forall_and, ReaderCall.Unused] using hcalls

end

/-- The way to the string of a message without an identifier. -/
def toFirst {T : TinyCbor} (bs : Bytes) (type : MsgType) (d : CborDeserializer T) :
    CborDeserializer T :=
  (d.fromBytes bs).begin_.memberConst type.code

/-- The way to the string of a message with one. -/
def toSecond {T : TinyCbor} (bs : Bytes) (type : MsgType) (id : Int) (d : CborDeserializer T) :
    CborDeserializer T :=
  ((toFirst bs type d).memberInt id).2

section

variable {T : TinyCbor} (hT : T.Moves) {d : CborDeserializer T} (hcapacity : d.capacity = capacity)
  {move : Option Cursor} (type : MsgType)
include hT hcapacity

theorem reached_toFirst (harrival : arrival (bs.take capacity) 1 = some move) :
    (toFirst bs type d).Reached move := by
  rw [← hcapacity] at harrival
  exact reached_of_arrival_succ (follows_begin hT d bs) (memberConst_spec hT type.code) harrival

theorem reached_toSecond (id : Int) (harrival : arrival (bs.take capacity) 2 = some move) :
    (toSecond bs type id d).Reached move := by
  rw [← hcapacity] at harrival
  exact reached_of_arrival_succ ((follows_begin hT d bs).memberConst hT type.code)
    (memberInt_reached hT id) harrival

end

section

variable {wild : Cursor} (hwild : wild.isFixed = false)
  {d : CborDeserializer (.strayingTo mem wild)} (hcapacity : d.capacity = capacity)
  (type : MsgType)
include hwild hcapacity

theorem strays_toFirst : ((toFirst bs type d).err, (toFirst bs type d).it)
    = strays wild (arrival (bs.take capacity) 1) := by
  subst hcapacity
  exact (memberConst_moves _ type.code).trans (strays_member (strays_begin d bs) hwild)

theorem strays_toSecond (id : Int) : ((toSecond bs type id d).err, (toSecond bs type id d).it)
    = strays wild (arrival (bs.take capacity) 2) :=
  (memberInt_moves _ id).trans (strays_member (strays_toFirst hwild hcapacity type) hwild)

end

theorem MsgConnect.copyFailuresUnused_iff :
    CopyFailuresUnused mem (fun _ => MsgConnect.reflect) capacity bs ↔
      CopyKnown mem .text (bs.take capacity) 1 := by
  have : Nonempty MsgConnect := ⟨⟨[]⟩⟩
  refine copyFailuresUnused_iff_of_walk (fun _ _ d => toFirst bs .connect d) ?_ ?_ ?_
  · intro T hT m d
    exact unused_memberString hT (unused_memberConst (unused_begin _) _) m.clientId
  · intro T hT m d hcapacity move harrival
    exact reached_toFirst hT hcapacity .connect harrival
  · intro wild hwild m d hcapacity
    exact strays_toFirst hwild hcapacity .connect

theorem reflectRegistration_copyFailuresUnused_iff (type : MsgType) :
    CopyFailuresUnused mem (fun _ (m : Int × Str) => reflectRegistration type m.1 m.2) capacity
        bs ↔
      CopyKnown mem .text (bs.take capacity) 2 := by
  refine copyFailuresUnused_iff_of_walk (fun _ m d => toSecond bs type m.1 d) ?_ ?_ ?_
  · intro T hT m d
    exact unused_memberString hT
      (unused_memberInt (unused_memberConst (unused_begin _) _) m.1) m.2
  · intro T hT m d hcapacity move harrival
    exact reached_toSecond hT hcapacity type m.1 harrival
  · intro wild hwild m d hcapacity
    exact strays_toSecond hwild hcapacity type m.1

theorem MsgPublisher.copyFailuresUnused_iff :
    CopyFailuresUnused mem (fun _ => MsgPublisher.reflect) capacity bs ↔
      CopyKnown mem .text (bs.take capacity) 2 := by
  rw [← reflectRegistration_copyFailuresUnused_iff .publisher]
  exact ⟨fun h T hT d hd m => h T hT d hd ⟨m.1, m.2⟩, fun h T hT d hd m => h T hT d hd (m.1, m.2)⟩

theorem MsgSubscriber.copyFailuresUnused_iff :
    CopyFailuresUnused mem (fun _ => MsgSubscriber.reflect) capacity bs ↔
      CopyKnown mem .text (bs.take capacity) 2 := by
  rw [← reflectRegistration_copyFailuresUnused_iff .subscriber]
  exact ⟨fun h T hT d hd m => h T hT d hd ⟨m.1, m.2⟩, fun h T hT d hd m => h T hT d hd (m.1, m.2)⟩

theorem MsgPublish.copyFailuresUnused_iff :
    CopyFailuresUnused mem (fun _ => MsgPublish.reflect) capacity bs ↔
      CopyKnown mem .bytes (bs.take capacity) 2 := by
  have : Nonempty MsgPublish := ⟨⟨0, []⟩⟩
  refine copyFailuresUnused_iff_of_walk (fun _ m d => toSecond bs .publish m.id d) ?_ ?_ ?_
  · intro T hT m d
    exact unused_memberBytes hT
      (unused_memberInt (unused_memberConst (unused_begin _) _) m.id) m.value
  · intro T hT m d hcapacity move harrival
    exact reached_toSecond hT hcapacity .publish m.id harrival
  · intro wild hwild m d hcapacity
    exact strays_toSecond hwild hcapacity .publish m.id

theorem reflectString_copyFailuresUnused_iff :
    CopyFailuresUnused mem (fun _ => reflectString) capacity bs ↔
      CopyKnown mem .text (bs.take capacity) 0 := by
  refine copyFailuresUnused_iff_of_walk (fun _ _ d => (d.fromBytes bs).begin_) ?_ ?_ ?_
  · intro T hT t d
    exact unused_memberString hT (unused_begin _) t
  · rintro T hT t d rfl move harrival
    exact reached_of_arrival_zero hT d bs harrival
  · rintro wild - t d rfl
    exact strays_begin d bs

theorem reflectBytes_copyFailuresUnused_iff :
    CopyFailuresUnused mem (fun _ => reflectBytes) capacity bs ↔
      CopyKnown mem .bytes (bs.take capacity) 0 := by
  refine copyFailuresUnused_iff_of_walk (fun _ _ d => (d.fromBytes bs).begin_) ?_ ?_ ?_
  · intro T hT t d
    exact unused_memberBytes hT (unused_begin _) t
  · rintro T hT t d rfl move harrival
    exact reached_of_arrival_zero hT d bs harrival
  · rintro wild - t d rfl
    exact strays_begin d bs

end

/-- **Exactly when no failed copy is used.** The members before the string stand at elements
of fixed size in a container, and where a string stands next it can be copied: a text is
complete and there is memory for it, of a byte string only memory is asked. For byte strings,
memory for any copy is enough. -/
theorem failed_copy_unused_iff (mem : Nat → Bool) (capacity : Nat) (bs : Bytes) :
    (CopyFailuresUnused mem (fun _ => MsgConnect.reflect) capacity bs ↔
      CopyKnown mem .text (bs.take capacity) 1) ∧
    (CopyFailuresUnused mem (fun _ => MsgPublisher.reflect) capacity bs ↔
      CopyKnown mem .text (bs.take capacity) 2) ∧
    (CopyFailuresUnused mem (fun _ => MsgSubscriber.reflect) capacity bs ↔
      CopyKnown mem .text (bs.take capacity) 2) ∧
    (CopyFailuresUnused mem (fun _ => MsgPublish.reflect) capacity bs ↔
      CopyKnown mem .bytes (bs.take capacity) 2) ∧
    (CopyFailuresUnused mem (fun _ => reflectString) capacity bs ↔
      CopyKnown mem .text (bs.take capacity) 0) ∧
    (CopyFailuresUnused mem (fun _ => reflectBytes) capacity bs ↔
      CopyKnown mem .bytes (bs.take capacity) 0) :=
  ⟨MsgConnect.copyFailuresUnused_iff, MsgPublisher.copyFailuresUnused_iff,
    MsgSubscriber.copyFailuresUnused_iff, MsgPublish.copyFailuresUnused_iff,
    reflectString_copyFailuresUnused_iff, reflectBytes_copyFailuresUnused_iff⟩

/-- A connect message that ends within the text of its client. -/
theorem failed_copy_used :
    ¬ CopyFailuresUnused (fun _ => true) (fun _ => MsgConnect.reflect) 1024
      [0x82, 0x00, 0x65, 0x61] := by
  intro hno
  rcases MsgConnect.copyFailuresUnused_iff.mp hno with hall | ⟨move, harrival, hcopies⟩
  · exact absurd (hall (.elem (.counted 1) (.text (some 1)) []) rfl) (by decide)
  · obtain rfl : some (Cursor.elem (.counted 1) (.text (some 5)) [0x61]) = move :=
      Option.some.inj harrival
    exact absurd (hcopies _ rfl rfl) (by decide)

end ZenohProxy
