import Mathlib.Data.List.Nodup
import ZenohProxy.Codec.Complete
import ZenohProxy.Codec.RoundTrip
import ZenohProxy.Codec.StringDecode

/-!
# The broker of the micro-controller

`broker::Broker` (`broker.h`) creates publishers and subscribers, each with an identifier
from one counter and a key that a prefix is put before. A publisher turns a value into a
publish message; a subscriber is attached to the flow of received publish messages and
decodes the value out of each. Neither compares the identifier of a message with its own
(`emitters_own_iff`), and the two choose their overloads of `member` for themselves: the
value of a publisher is a `const T &` and goes out as an `int` (`value_survives_iff`).
-/

namespace ZenohProxy

open Cbor (Cursor Scalar encodeArray)
open CborDeserializer CborSerializer

/-! ## Resources -/

structure Resource where
  id : Int
  key : Str
  deriving DecidableEq, Repr

/-- The value types a subscriber can be created with: those that the deserializer has a
`member` for. -/
inductive ValueType where
  | int
  | uint64
  | string
  | bytes
  deriving DecidableEq, Repr

abbrev ValueType.Value : ValueType → Type
  | .int => Int
  | .uint64 => Nat
  | .string => Str
  | .bytes => Bytes

/-- The overload of `member` for a value type. -/
def ValueType.member {T : TinyCbor} (type : ValueType) (t : type.Value)
    (d : CborDeserializer T) : type.Value × CborDeserializer T :=
  match type with
  | .int => d.memberInt t
  | .uint64 => d.memberUint64 t
  | .string => d.memberString t
  | .bytes => d.memberBytes t

/-- A text or byte string that is a value is decoded from an array of its own. -/
theorem ValueType.member_string {T : TinyCbor} (t : Str) (d : CborDeserializer T) :
    ValueType.string.member t d.begin_ = reflectString t d := rfl

theorem ValueType.member_bytes {T : TinyCbor} (t : Bytes) (d : CborDeserializer T) :
    ValueType.bytes.member t d.begin_ = reflectBytes t d := rfl

structure Subscriber extends Resource where
  type : ValueType
  deriving DecidableEq, Repr

def brokerSrcPrefix : Str := str "src/esp32/"

def brokerDstPrefix : Str := str "dst/esp32/"

/-- `topic.find("src/") == 0 || topic.find("dst/") == 0`. -/
def hasPrefix (name : Str) : Bool :=
  (str "src/").isPrefixOf name || (str "dst/").isPrefixOf name

def prefixed (brokerPrefix name : Str) : Str :=
  if hasPrefix name then name else brokerPrefix ++ name

/-- The largest size of a `vector` of pointers on the 32-bit controller; `push_back` throws
beyond it. -/
def vectorMaxSize : Nat := 2 ^ 29 - 1

/-- A call of `publisher<T>(name)` or `subscriber<T>(name)`. -/
inductive Creation where
  | publisher (name : Str)
  | subscriber (name : Str) (type : ValueType)
  deriving DecidableEq, Repr

structure Broker where
  resourceId : Int
  publishers : List Resource
  subscribers : List Subscriber
  deriving DecidableEq, Repr

namespace Broker

def new : Broker := ⟨0, [], []⟩

/-- `publisher<T>(name)`; `none` when the vector is full. -/
def publisher (b : Broker) (name : Str) : Option (Broker × Resource) :=
  if b.publishers.length < vectorMaxSize then
    let p : Resource := ⟨b.resourceId, prefixed brokerSrcPrefix name⟩
    some ({ b with resourceId := b.resourceId + 1, publishers := b.publishers ++ [p] }, p)
  else none

/-- `subscriber<T>(name)`. -/
def subscriber (b : Broker) (name : Str) (type : ValueType) : Option (Broker × Subscriber) :=
  if b.subscribers.length < vectorMaxSize then
    let s : Subscriber := ⟨⟨b.resourceId, prefixed brokerDstPrefix name⟩, type⟩
    some ({ b with resourceId := b.resourceId + 1, subscribers := b.subscribers ++ [s] }, s)
  else none

def create (b : Broker) : Creation → Option Broker
  | .publisher name => (b.publisher name).map Prod.fst
  | .subscriber name type => (b.subscriber name type).map Prod.fst

/-- The broker after some calls, if all of them return. -/
def creates (b : Broker) (calls : List Creation) : Option Broker := calls.foldlM create b

end Broker

/-! ## What the calls have created -/

def Creation.name : Creation → Str
  | .publisher name => name
  | .subscriber name _ => name

/-- The publisher that comes of a call, if it is one, and the calls before it. -/
def Creation.asPublisher (call : Creation) (n : Nat) : Option Resource :=
  match call with
  | .publisher name => some ⟨n, prefixed brokerSrcPrefix name⟩
  | .subscriber .. => none

def Creation.asSubscriber (call : Creation) (n : Nat) : Option Subscriber :=
  match call with
  | .publisher _ => none
  | .subscriber name type => some ⟨⟨n, prefixed brokerDstPrefix name⟩, type⟩

/-- The identifiers of all resources. -/
def Broker.ids (b : Broker) : List Int :=
  b.publishers.map Resource.id ++ b.subscribers.map fun s => s.id

/-- The broker is what the calls make of a new one: an identifier is the number of calls
before. -/
structure Broker.Created (calls : List Creation) (b : Broker) : Prop where
  resourceId : b.resourceId = calls.length
  publishers : b.publishers = calls.zipIdx.filterMap fun c => c.1.asPublisher c.2
  subscribers : b.subscribers = calls.zipIdx.filterMap fun c => c.1.asSubscriber c.2
  distinct : b.ids.Nodup
  ids_lt : ∀ id ∈ b.ids, 0 ≤ id ∧ id < b.resourceId
  bounded : b.publishers.length ≤ vectorMaxSize ∧ b.subscribers.length ≤ vectorMaxSize
  length : b.publishers.length + b.subscribers.length = calls.length

namespace Broker

theorem created_new : Created [] new where
  resourceId := rfl
  publishers := rfl
  subscribers := rfl
  distinct := List.nodup_nil
  ids_lt _ hid := by cases hid
  bounded := by decide
  length := rfl

/-- The identifiers with a new one among them, wherever it stands. -/
theorem Created.ids_create {calls : List Creation} {b b' : Broker} (h : Created calls b)
    (hids : b'.ids.Perm (b.resourceId :: b.ids)) (hnext : b'.resourceId = b.resourceId + 1) :
    b'.ids.Nodup ∧ ∀ id ∈ b'.ids, 0 ≤ id ∧ id < b'.resourceId := by
  have hid : (0 : Int) ≤ b.resourceId := by rw [h.resourceId]; exact Int.natCast_nonneg _
  have hfresh : b.resourceId ∉ b.ids := fun hmem => Int.lt_irrefl _ (h.ids_lt _ hmem).2
  refine ⟨hids.nodup_iff.mpr (List.nodup_cons.mpr ⟨hfresh, h.distinct⟩), fun id hmem => ?_⟩
  rw [hids.mem_iff, List.mem_cons] at hmem
  rw [hnext]
  rcases hmem with rfl | hmem
  · omega
  · have hlt := h.ids_lt id hmem
    omega

theorem Created.create {calls : List Creation} {b b' : Broker} (h : Created calls b)
    {call : Creation} (hcreate : b.create call = some b') : Created (calls ++ [call]) b' := by
  obtain ⟨hpubs, hsubs⟩ := h.bounded
  have hlength := h.length
  cases call with
  | publisher name =>
    simp only [Broker.create, publisher, Option.map_eq_some_iff, Option.ite_none_right_eq_some,
      Option.some.injEq] at hcreate
    obtain ⟨_, ⟨hroom, rfl⟩, rfl⟩ := hcreate
    -- the new identifier stands in the middle
    have hids : ids { b with
        resourceId := b.resourceId + 1
        publishers := b.publishers ++ [⟨b.resourceId, prefixed brokerSrcPrefix name⟩] }
        |>.Perm (b.resourceId :: b.ids) := by
      simp only [ids, List.map_append, List.map_cons, List.map_nil, List.append_assoc]
      exact List.perm_middle
    obtain ⟨hdistinct, hlt⟩ := h.ids_create hids rfl
    refine ⟨by simp [h.resourceId], ?_, ?_, hdistinct, hlt, ⟨by simp; omega, hsubs⟩, ?_⟩
    · simp [List.zipIdx_append, List.filterMap_append, h.publishers, Creation.asPublisher,
        h.resourceId]
    · simp [List.zipIdx_append, List.filterMap_append, h.subscribers, Creation.asSubscriber]
    · simp
      omega
  | subscriber name type =>
    simp only [Broker.create, subscriber, Option.map_eq_some_iff, Option.ite_none_right_eq_some,
      Option.some.injEq] at hcreate
    obtain ⟨_, ⟨hroom, rfl⟩, rfl⟩ := hcreate
    -- here it stands at the end
    have hids : ids { b with
        resourceId := b.resourceId + 1
        subscribers := b.subscribers ++ [⟨⟨b.resourceId, prefixed brokerDstPrefix name⟩, type⟩] }
        |>.Perm (b.resourceId :: b.ids) := by
      simp only [ids, List.map_append, List.map_cons, List.map_nil, ← List.append_assoc]
      exact List.perm_append_singleton _ _
    obtain ⟨hdistinct, hlt⟩ := h.ids_create hids rfl
    refine ⟨by simp [h.resourceId], ?_, ?_, hdistinct, hlt, ⟨hpubs, by simp; omega⟩, ?_⟩
    · simp [List.zipIdx_append, List.filterMap_append, h.publishers, Creation.asPublisher]
    · simp [List.zipIdx_append, List.filterMap_append, h.subscribers, Creation.asSubscriber,
        h.resourceId]
    · simp
      omega

/-- **Any calls.** -/
theorem Created.creates {calls : List Creation} {b b' : Broker} (h : Created calls b)
    {more : List Creation} (hcreates : b.creates more = some b') :
    Created (calls ++ more) b' := by
  induction more generalizing calls b with
  | nil =>
    obtain rfl : b = b' := Option.some.inj hcreates
    rwa [List.append_nil]
  | cons call more ih =>
    obtain ⟨mid, hcreate, hmore⟩ := Option.bind_eq_some_iff.mp hcreates
    rw [List.append_cons]
    exact ih (h.create hcreate) hmore

section

variable {calls : List Creation} {b : Broker} (h : Created calls b)
include h

theorem Created.mem_publishers {r : Resource} : r ∈ b.publishers ↔
    ∃ (n : Nat) (name : Str), calls[n]? = some (.publisher name) ∧
      r = ⟨n, prefixed brokerSrcPrefix name⟩ := by
  rw [h.publishers, List.mem_filterMap]
  constructor
  · rintro ⟨⟨call, n⟩, hmem, hr⟩
    rw [List.mem_zipIdx_iff_getElem?] at hmem
    cases call with
    | publisher name => exact ⟨n, name, hmem, (Option.some.inj hr).symm⟩
    | subscriber name type => cases hr
  · rintro ⟨n, name, hcall, rfl⟩
    exact ⟨(.publisher name, n), List.mem_zipIdx_iff_getElem?.mpr hcall, rfl⟩

theorem Created.mem_subscribers {s : Subscriber} : s ∈ b.subscribers ↔
    ∃ (n : Nat) (name : Str) (type : ValueType), calls[n]? = some (.subscriber name type) ∧
      s = ⟨⟨n, prefixed brokerDstPrefix name⟩, type⟩ := by
  rw [h.subscribers, List.mem_filterMap]
  constructor
  · rintro ⟨⟨call, n⟩, hmem, hs⟩
    rw [List.mem_zipIdx_iff_getElem?] at hmem
    cases call with
    | publisher name => cases hs
    | subscriber name type => exact ⟨n, name, type, hmem, (Option.some.inj hs).symm⟩
  · rintro ⟨n, name, type, hcall, rfl⟩
    exact ⟨(.subscriber name type, n), List.mem_zipIdx_iff_getElem?.mpr hcall, rfl⟩

theorem Created.mem_publishers_append {more : List Creation} {b' : Broker}
    (h' : Created (calls ++ more) b') {r : Resource} (hr : r ∈ b.publishers) :
    r ∈ b'.publishers := by
  obtain ⟨n, name, hcall, rfl⟩ := h.mem_publishers.mp hr
  obtain ⟨hn, -⟩ := List.getElem?_eq_some_iff.mp hcall
  exact h'.mem_publishers.mpr ⟨n, name, by rwa [List.getElem?_append_left hn], rfl⟩

/-- An `int` is wide enough for the counter. -/
theorem Created.isInt32 {id : Int} (hid : id ∈ b.ids) : IsInt32 id := by
  obtain ⟨hlo, hhi⟩ := h.ids_lt id hid
  have hcount := h.resourceId
  have hlength := h.length
  have hbounds := h.bounded
  -- each call has filled a place in one of two vectors
  simp only [vectorMaxSize] at hbounds
  unfold IsInt32
  omega

end

end Broker

/-! ## Publishing and subscribing -/

/-- The lambda of `Publisher<T>` for an integer type, on a value that `const int &` has been
bound to: the value is written into an array of its own, and that goes out in a publish
message. `none` stands for bytes beyond the buffer. -/
def Publisher.on {T : TinyCbor} (p : Resource) (toCbor : CborSerializer T) (t : Int) :
    Option Bytes :=
  let toCbor := (toCbor.begin_.memberConst (toInt32 t)).end_
  -- the same serializer is used again, for the message around the value
  toCbor.toBytes.bind fun bs => (MsgPublish.reflect ⟨p.id, bs⟩ toCbor).2.toBytes

/-- The lambda of a subscriber. `fromCbor` is its local decoder, `local_` and `t` are what the
message and the value hold before they are decoded into. -/
def Subscriber.on {T : TinyCbor} (s : Subscriber) (fromCbor : CborDeserializer T)
    (local_ : Int) (t : s.type.Value) (frame : Bytes) : Option s.type.Value :=
  let (msgPublish, fromCbor) := MsgPublish.reflect ⟨local_, []⟩ (fromCbor.fromBytes frame)
  -- the identifier of the message is not looked at
  if fromCbor.success then
    -- nor is the success of decoding the value
    some (s.type.member t (fromCbor.fromBytes msgPublish.value).begin_).1
  else none

/-! ## Which subscribers emit -/

section

variable {T : TinyCbor} (hT : T.Documented) {fromCbor : CborDeserializer T}
  (hcapacity : fromCbor.capacity = 100) (s : Subscriber) (local_ : Int) (t : s.type.Value)
  {m : MsgPublish} (hid : IsInt32 m.id)
include hT hcapacity hid

/-- A message that fits the local decoder makes any subscriber emit. -/
theorem Subscriber.on_of_fits (hfit : (encodeArray m.elements).length ≤ 100) :
    s.on fromCbor local_ t (encodeArray m.elements) = some (s.type.member t
      ((MsgPublish.reflect ⟨local_, []⟩ (fromCbor.fromBytes (encodeArray m.elements))).2.fromBytes
        m.value).begin_).1 := by
  obtain ⟨hm, hsuccess⟩ := MsgPublish.reflect_encode hT fromCbor hid
    (fits_elements (MsgType.isInt32_code .publish) hid (by exact hfit.trans (by decide)))
    (by rw [hcapacity]; exact hfit) ⟨local_, []⟩
  simp only [Subscriber.on, hsuccess, if_true, hm]

/-- One that does not makes no subscriber emit. -/
theorem Subscriber.on_of_exceeds (hvalue : m.value.length < 2 ^ 64)
    (hlong : 100 < (encodeArray m.elements).length) :
    s.on fromCbor local_ t (encodeArray m.elements) = none := by
  have hfails := MsgPublish.reflect_truncated hT fromCbor (m.fits hid hvalue)
    (by rw [hcapacity]; decide) (by rw [hcapacity]; exact hlong) ⟨local_, []⟩
  simp only [Subscriber.on, hfails, Bool.false_eq_true, if_false]

end

/-- Of any value type there is a value. -/
def ValueType.zero : (type : ValueType) → type.Value
  | .int => (0 : Int)
  | .uint64 => (0 : Nat)
  | .string => ([] : Str)
  | .bytes => ([] : Bytes)

/-- **When subscribers receive only their own samples.** Of any subscribers, those that emit
for a message all have its identifier exactly when the message exceeds their decoders, or
there is no subscriber with another identifier. -/
theorem emitters_own_iff (T : TinyCbor) (hT : T.Documented) (subscribers : List Subscriber)
    (id : Int) (hid : IsInt32 id) (value : Bytes) (hvalue : value.length < 2 ^ 64) :
    (∀ s ∈ subscribers, ∀ (fromCbor : CborDeserializer T) (local_ : Int) (t : s.type.Value),
      fromCbor.capacity = 100 →
        (s.on fromCbor local_ t (encodeArray (MsgPublish.elements ⟨id, value⟩))).isSome →
          s.id = id) ↔
      100 < (encodeArray (MsgPublish.elements ⟨id, value⟩)).length ∨
        ∀ s ∈ subscribers, s.id = id := by
  constructor
  · intro hown
    -- a message that fits is one that every subscriber emits for
    by_cases hfit : (encodeArray (MsgPublish.elements ⟨id, value⟩)).length ≤ 100
    · refine .inr fun s hs => hown s hs (.new T 100) 0 s.type.zero rfl ?_
      rw [s.on_of_fits hT rfl 0 s.type.zero hid hfit]
      rfl
    · exact .inl (Nat.lt_of_not_le hfit)
  · rintro (hlong | hsame) s hs fromCbor local_ t hcapacity hemits
    · rw [s.on_of_exceeds hT hcapacity local_ t hid hvalue hlong] at hemits
      cases hemits
    · exact hsame s hs

theorem emitters_own_single :
    (∀ s ∈ [Subscriber.mk ⟨2, str "dst/a"⟩ .string],
      ∀ (fromCbor : CborDeserializer lenient) (local_ : Int) (t : s.type.Value),
        fromCbor.capacity = 100 →
          (s.on fromCbor local_ t (encodeArray (MsgPublish.elements ⟨2, [0x61]⟩))).isSome →
            s.id = 2) ↔
      100 < (encodeArray (MsgPublish.elements ⟨2, [0x61]⟩)).length ∨
        ∀ s ∈ [Subscriber.mk ⟨2, str "dst/a"⟩ .string], s.id = 2 :=
  emitters_own_iff lenient (TinyCbor.reference_documented _)
    [⟨⟨2, str "dst/a"⟩, .string⟩] 2 (by decide) [0x61] (by decide)

/-- A broker with two subscribers: the second, an integer, emits for a message of the
first. -/
theorem other_subscriber_emits :
    (Broker.new.creates [.subscriber (str "a") .string, .subscriber (str "b") .int]).map
        Broker.subscribers
      = some [⟨⟨0, str "dst/esp32/a"⟩, .string⟩, ⟨⟨1, str "dst/esp32/b"⟩, .int⟩] ∧
    (Subscriber.on ⟨⟨1, str "dst/esp32/b"⟩, .int⟩ (.new lenient 100) 0 (5 : Int)
      (encodeArray (MsgPublish.elements ⟨0, [0x61]⟩))).isSome = true := by
  refine ⟨by decide, ?_⟩
  rw [Subscriber.on_of_fits (TinyCbor.reference_documented _) rfl ⟨⟨1, str "dst/esp32/b"⟩, .int⟩
    0 (5 : Int) (by decide) (by decide)]
  rfl

/-! ## What a value comes to -/

theorem length_int_le (w : Int) : (encodeArray [.int w]).length ≤ 11 := by
  have := Cbor.length_encodeInt_le w
  simp only [Cbor.length_encodeArray, Cbor.encodeScalars, List.flatMap_cons, List.flatMap_nil,
    Cbor.encodeScalar, List.append_nil]
  omega

theorem length_publish_int_le (id w : Int) :
    (encodeArray (MsgPublish.elements ⟨id, encodeArray [.int w]⟩)).length ≤ 40 := by
  have h₁ := Cbor.length_encodeInt_le MsgType.publish.code
  have h₂ := Cbor.length_encodeInt_le id
  have h₃ := Cbor.length_encodeHead_le 2 (encodeArray [.int w]).length
  have h₄ := length_int_le w
  simp only [Cbor.length_encodeArray, Cbor.encodeScalars, List.flatMap_cons, List.flatMap_nil,
    Cbor.encodeScalar, Cbor.encodeString, Cbor.StringKind.major, MsgPublish.elements,
    List.append_nil, List.length_append] at h₃ h₄ ⊢
  omega

section

variable {T : TinyCbor} (hT : T.Documented)
include hT

/-- What a publisher sends: the value as an `int`, in an array in a publish message. -/
theorem Publisher.on_eq {toCbor : CborSerializer T} (hcapacity : toCbor.capacity = 100)
    (p : Resource) (t : Int) :
    Publisher.on p toCbor t = some (encodeArray
      (MsgPublish.elements ⟨p.id, encodeArray [.int (toInt32 t)]⟩)) := by
  have hinner : Finished toCbor (encodeArray [.int (toInt32 t)])
      (toCbor.begin_.memberConst (toInt32 t)).end_ :=
    ((wrote_begin hT toCbor).memberConst hT (toInt32 t)).end_ hT
  have houter := MsgPublish.reflect_finished hT
    (toCbor.begin_.memberConst (toInt32 t)).end_ ⟨p.id, encodeArray [.int (toInt32 t)]⟩
  have h₁ := length_int_le (toInt32 t)
  have h₂ := length_publish_int_le p.id (toInt32 t)
  simp only [Publisher.on]
  rw [hinner.toBytes (by omega), Option.bind_some,
    houter.toBytes (by rw [hinner.capacity]; omega)]

/-- What a subscriber of `uint64_t` emits for an `int`: a negative one leaves the value as it
was. -/
theorem Subscriber.on_int {fromCbor : CborDeserializer T} (hcapacity : fromCbor.capacity = 100)
    (r : Resource) (local_ : Int) (t : Nat) {id w : Int} (hid : IsInt32 id) (hw : IsInt32 w) :
    Subscriber.on ⟨r, .uint64⟩ fromCbor local_ t
        (encodeArray (MsgPublish.elements ⟨id, encodeArray [.int w]⟩))
      = some (if 0 ≤ w then w.toNat else t) := by
  have h₁ := length_int_le w
  have h₂ := length_publish_int_le id w
  have hfits : ∀ x ∈ [Scalar.int w], x.Fits := by
    simpa using fits_int hw
  rw [Subscriber.on_of_fits hT hcapacity ⟨r, .uint64⟩ local_ t hid (by omega)]
  generalize hd : (MsgPublish.reflect ⟨local_, []⟩ (fromCbor.fromBytes
    (encodeArray (MsgPublish.elements ⟨id, encodeArray [.int w]⟩)))).2 = d
  have hroom : d.capacity = 100 := by
    rw [← hd, MsgPublish.capacity_reflect, capacity_fromBytes, hcapacity]
  obtain ⟨herr, hit⟩ := reached_some.mp
    (begin_atScalars hT hfits d (by rw [hroom]; omega))
  have hread := memberUint64_value hT t herr hit
  -- an unsigned integer is read from the head of a non-negative one only
  rw [show (Scalar.int w).head.uint? = if 0 ≤ w then some w.toNat else none from by
    simp only [Scalar.head, Cbor.intHead]
    split <;> rfl] at hread
  refine congrArg some (hread.trans ?_)
  split <;> rfl

end

/-- The frame that a publisher of `uint64_t` makes of `v` decodes to a message whose value,
sent back under an identifier, makes a subscriber of `uint64_t` emit `v`. -/
def Survives (T : TinyCbor) (p r : Resource) (id : Int) (v : Nat) : Prop :=
  ∀ toCbor : CborSerializer T, toCbor.capacity = 100 →
    ∃ frame m, Publisher.on p toCbor v = some frame ∧
      (∀ (d : CborDeserializer T) (m₀ : MsgPublish), d.capacity = 1024 →
        (m₀.reflect (d.fromBytes frame)).1 = m ∧
          (m₀.reflect (d.fromBytes frame)).2.success = true) ∧
      ∀ (fromCbor : CborDeserializer T) (local_ : Int) (t : Nat), fromCbor.capacity = 100 →
        Subscriber.on ⟨r, .uint64⟩ fromCbor local_ t
          (encodeArray (MsgPublish.elements ⟨id, m.value⟩)) = some v

section

variable {T : TinyCbor} (hT : T.Documented) {p r : Resource} (hp : IsInt32 p.id) {id : Int}
  (hid : IsInt32 id) {v : Nat}
include hT hp hid

omit hid in
theorem Publisher.frame_decodes (w : Int) {d : CborDeserializer T} (hd : d.capacity = 1024)
    (m₀ : MsgPublish) :
    (m₀.reflect (d.fromBytes (encodeArray
        (MsgPublish.elements ⟨p.id, encodeArray [.int w]⟩)))).1
      = ⟨p.id, encodeArray [.int w]⟩ ∧
      (m₀.reflect (d.fromBytes (encodeArray
        (MsgPublish.elements ⟨p.id, encodeArray [.int w]⟩)))).2.success = true := by
  have hlen := (length_publish_int_le p.id w).trans (show 40 ≤ 1024 by decide)
  exact MsgPublish.reflect_encode hT d hp
    (fits_elements (MsgType.isInt32_code .publish) hp hlen) (by rw [hd]; exact hlen) m₀

theorem Survives.lt (h : Survives T p r id v) : v < 2 ^ 31 := by
  obtain ⟨frame, m, hframe, hm, hback⟩ := h (.new T 100) rfl
  rw [Publisher.on_eq hT rfl, Option.some.injEq] at hframe
  subst hframe
  obtain rfl := (hm (.new T 1024) ⟨0, []⟩ rfl).1
  rw [(Publisher.frame_decodes hT hp (toInt32 v) rfl ⟨0, []⟩).1] at hback
  -- the value before decoding may be any, in particular another than `v`
  have hemit := hback (.new T 100) 0 (v + 1) rfl
  have hrange := isInt32_toInt32 v
  rw [Subscriber.on_int hT rfl r 0 (v + 1) hid hrange, Option.some.injEq] at hemit
  unfold IsInt32 at hrange
  -- either the value has come back as an `int`, or it is the one from before
  split at hemit <;> omega

theorem survives_of_lt (hv : v < 2 ^ 31) : Survives T p r id v := by
  intro toCbor hcapacity
  have hsame : toInt32 v = v := toInt32_of_isInt32 ⟨by omega, by omega⟩
  refine ⟨_, _, Publisher.on_eq hT hcapacity p v,
    fun d m₀ hd => Publisher.frame_decodes hT hp (toInt32 v) hd m₀, ?_⟩
  intro fromCbor local_ t hroom
  rw [Subscriber.on_int hT hroom r local_ t hid (isInt32_toInt32 v), hsame, if_pos (by omega),
    Int.toNat_natCast]

end

/-- **Exactly the values below 2^31 survive.** Others are cut to 32 bits, and those that
are negative then do not reach the subscriber at all. -/
theorem value_survives_iff (T : TinyCbor) (hT : T.Documented) (p r : Resource)
    (hp : IsInt32 p.id) (id : Int) (hid : IsInt32 id) (v : Nat) :
    Survives T p r id v ↔ v < 2 ^ 31 :=
  ⟨Survives.lt hT hp hid, survives_of_lt hT hp hid⟩

/-- An uptime of one second. -/
theorem value_survives_second :
    Survives lenient ⟨0, str "a"⟩ ⟨1, str "b"⟩ 1 1000 ↔ 1000 < 2 ^ 31 :=
  value_survives_iff lenient (TinyCbor.reference_documented _) ⟨0, str "a"⟩ ⟨1, str "b"⟩
    (by decide) 1 (by decide) 1000

/-- An uptime of 2^31 milliseconds, not yet 25 days. -/
theorem value_lost : ¬ Survives lenient ⟨0, str "a"⟩ ⟨1, str "b"⟩ 1 (2 ^ 31) := fun h =>
  absurd (h.lt (TinyCbor.reference_documented _) (by decide) (by decide)) (Nat.lt_irrefl _)

end ZenohProxy
