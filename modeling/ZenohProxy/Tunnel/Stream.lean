import Mathlib.Algebra.GroupWithZero.Nat
import ZenohProxy.Tunnel.Client

/-!
# The receive stream of the tunnel

`handleFrame` puts the whole payload of a data frame into `_inputStream`, the header byte with
it. So what `recvData` hands out is the TCP stream with a byte `R` before each chunk, and a
beginning of the TCP stream only as long as that begins with nothing but `R`:
`tunnel_stream_iff`.
-/

namespace ZenohProxy

/-! ## A mark before each chunk -/

section

variable {α : Type}

/-- A letter of the marked stream is a mark, or stands earlier in the stream. -/
theorem marked_getElem? {x : α} {cs : List (List α)} {i : Nat} {a : α}
    (h : (cs.flatMap (x :: ·))[i]? = some a) : a = x ∨ ∃ j < i, cs.flatten[j]? = some a := by
  induction cs generalizing i with
  | nil => simp at h
  | cons c cs ih =>
    rw [List.flatMap_cons, List.cons_append] at h
    cases i with
    | zero => exact .inl (Option.some.inj h).symm
    | succ i =>
      rw [List.getElem?_cons_succ] at h
      rw [List.flatten_cons]
      by_cases hi : i < c.length
      -- in the first chunk there is one mark before it
      · rw [List.getElem?_append_left hi] at h
        exact .inr ⟨i, Nat.lt_succ_self i, by rwa [List.getElem?_append_left hi]⟩
      · rw [List.getElem?_append_right (by omega)] at h
        rcases ih h with rfl | ⟨j, hj, hletter⟩
        · exact .inl rfl
        · refine .inr ⟨c.length + j, by omega, ?_⟩
          rwa [List.getElem?_append_right (by omega), Nat.add_sub_cancel_left]

/-- **A beginning of the marked stream** is one of the stream exactly when that begins with as
many marks. -/
theorem marked_prefix_iff {x : α} {cs : List (List α)} {as : List α}
    (has : as <+: cs.flatMap (x :: ·)) :
    as <+: cs.flatten ↔ List.replicate as.length x <+: cs.flatten := by
  have hletter (i : Nat) (hi : i < as.length) :
      as[i] = x ∨ ∃ j < i, cs.flatten[j]? = some as[i] :=
    marked_getElem? (List.prefix_iff_getElem?.mp has i hi)
  have hmarks (h : ∀ i (hi : i < as.length), as[i] = x) : as = List.replicate as.length x :=
    List.ext_getElem (by simp) fun i hi _ => by simp [h i hi]
  constructor
  · intro hprefix
    rw [← hmarks]
    · exact hprefix
    -- each letter is a mark, or repeats an earlier one
    intro i
    induction i using Nat.strongRecOn with
    | ind i ih =>
      intro hi
      rcases hletter i hi with hmark | ⟨j, hj, hsame⟩
      · exact hmark
      · have hj' : j < as.length := Nat.lt_trans hj hi
        rw [List.prefix_iff_getElem?.mp hprefix j hj'] at hsame
        rw [← Option.some.inj hsame]
        exact ih j hj hj'
  · intro hprefix
    rw [hmarks]
    · exact hprefix
    intro i hi
    rcases hletter i hi with hmark | ⟨j, hj, hsame⟩
    · exact hmark
    · have hj' : j < (List.replicate as.length x).length := by
        rw [List.length_replicate]
        omega
      rw [List.prefix_iff_getElem?.mp hprefix j hj', List.getElem_replicate] at hsame
      exact (Option.some.inj hsame).symm

end

/-! ## The stream that is handed out -/

/-- The TCP stream. -/
def tcpStream (events : List TcpEvent) : List Bytes :=
  events.filterMap fun e =>
    match e with
    | .incoming data => some data
    | .connected _ => none

/-- The chunks that `recvData` passes on to `handleRxd`. -/
def delivered (rxds : List (Int × Chunk)) : List Chunk :=
  rxds.filterMap fun r => if r.1 = 0 ∧ r.2.bytes.length ≠ 0 then some r.2 else none

def TcpEvent.payload : TcpEvent → Bytes
  | .incoming data => tcpRecv :: data
  | .connected isConnected => [if isConnected then tcpConnected else tcpDisconnected]

theorem TcpEvent.frame_eq (e : TcpEvent) : e.frame = pppFrame e.payload := by
  cases e <;> rfl

theorem TcpEvent.payload_ne_nil (e : TcpEvent) : e.payload ≠ [] := by
  cases e <;> exact List.cons_ne_nil _ _

theorem stream_append (cs cs' : List Chunk) : stream (cs ++ cs') = stream cs ++ stream cs' :=
  List.flatMap_append

theorem delivered_append (rxds rxds' : List (Int × Chunk)) :
    delivered (rxds ++ rxds') = delivered rxds ++ delivered rxds' := List.filterMap_append

/-- The data frames add the chunks with a mark before each, the others nothing. -/
theorem content_payloads (beyond : UInt8) (events : List TcpEvent) :
    (events.map TcpEvent.payload).flatMap (Client.content beyond)
      = (tcpStream events).flatMap (tcpRecv :: ·) := by
  induction events with
  | nil => rfl
  | cons e events ih =>
    rw [List.map_cons, List.flatMap_cons, ih]
    cases e with
    | incoming data => rfl
    | connected isConnected => cases isConnected <;> rfl

namespace Client

/-- The loop of `recvData` drops what `rxd` returns with an error, or without data. -/
theorem foldl_delivered (c : Client) (rc : Int) (rxdBuffer : Chunk) (rxds : List (Int × Chunk)) :
    (delivered rxds).foldl handleRxd (c.onRxd rc rxdBuffer)
      = (delivered ((rc, rxdBuffer) :: rxds)).foldl handleRxd c := by
  by_cases hrc : rc = 0 ∧ rxdBuffer.bytes.length ≠ 0
  · have hcons : delivered ((rc, rxdBuffer) :: rxds) = rxdBuffer :: delivered rxds :=
      List.filterMap_cons_some (if_pos hrc)
    rw [hcons, List.foldl_cons, onRxd, if_pos hrc.1, if_neg hrc.2]
  · have hskip : delivered ((rc, rxdBuffer) :: rxds) = delivered rxds :=
      List.filterMap_cons_none (if_neg hrc)
    rw [hskip, onRxd]
    split
    · rename_i hzero
      rw [if_pos (not_not.mp fun hlen => hrc ⟨hzero, hlen⟩)]
    · rfl

theorem recvLoop_spec {capacity : Nat} {c c' : Client} {rxds rest : List (Int × Chunk)}
    (h : c.recvLoop capacity rxds = some (c', rest)) :
    ∃ used, rxds = used ++ rest ∧ c' = (delivered used).foldl handleRxd c ∧
      capacity ≤ c'.inputStream.length := by
  induction rxds generalizing c with
  | nil =>
    rw [recvLoop] at h
    split at h
    · cases h
    · cases h
      exact ⟨[], rfl, rfl, by omega⟩
  | cons r rxds ih =>
    obtain ⟨rc, rxdBuffer⟩ := r
    rw [recvLoop] at h
    split at h
    · obtain ⟨used, rfl, rfl, hcapacity⟩ := ih h
      exact ⟨(rc, rxdBuffer) :: used, rfl, foldl_delivered c rc rxdBuffer used, hcapacity⟩
    · cases h
      exact ⟨[], rfl, rfl, by omega⟩

/-- What calls of `recvData` hand out and leave is what the segments add. -/
theorem recvAll_spec {capacities : List Nat} {c c' : Client} {rxds rest : List (Int × Chunk)}
    {out : Bytes} (htime : inTime c.lastFrameFlag (delivered rxds))
    (h : c.recvAll capacities rxds = some (out, c', rest)) :
    ∃ used, rxds = used ++ rest ∧ out.length = capacities.sum ∧
      out ++ c'.inputStream = c.inputStream ++ contents c.beyond
        (Segments.split pppFlagChar c.inputFrame
          (Segments.symbols ((stream (delivered used)).map Prod.fst))).2 := by
  induction capacities generalizing c rxds out with
  | nil =>
    cases h
    exact ⟨[], rfl, rfl, (List.append_nil _).symm⟩
  | cons capacity capacities ih =>
    rw [recvAll, recvData] at h
    cases hloop : c.recvLoop capacity rxds with
    | none => simp only [hloop, reduceCtorEq] at h
    | some r =>
      obtain ⟨c₁, rxds₁⟩ := r
      simp only [hloop] at h
      cases hall : recvAll { c₁ with inputStream := c₁.inputStream.drop capacity } capacities
          rxds₁ with
      | none => simp only [hall, reduceCtorEq] at h
      | some r =>
        obtain ⟨later, c₂, rxds₂⟩ := r
        simp only [hall, Option.some.injEq, Prod.mk.injEq] at h
        obtain ⟨rfl, rfl, rfl⟩ := h
        obtain ⟨used, rfl, rfl, hcapacity⟩ := recvLoop_spec hloop
        rw [delivered_append, inTime_append, Bool.and_eq_true] at htime
        obtain ⟨hkept, hstream, hlast, hbeyond⟩ := handleChunks_eq (delivered used) c htime.1
        obtain ⟨used', rfl, hlength, hlater⟩ := ih (by rw [hlast]; exact htime.2) hall
        refine ⟨used ++ used', (List.append_assoc ..).symm, ?_, ?_⟩
        · rw [List.length_append, List.length_take, hlength, List.sum_cons]
          omega
        · rw [delivered_append]
          simp only [hkept, hbeyond] at hlater
          rw [List.append_assoc, hlater, ← List.append_assoc, List.take_append_drop, hstream]
          rw [stream_append, List.map_append, Segments.symbols_append, Segments.split_append,
            contents_append, List.append_assoc]

end Client

/-- **When the tunnel hands out the TCP stream.** The frames that the proxy sends reach the
client in any chunks without timeouts; what successive calls of `recvData` hand out is a
beginning of the TCP stream exactly when that begins with as many bytes `R`. -/
theorem tunnel_stream_iff (events : List TcpEvent) (c : Client) (hframe : c.inputFrame = [])
    (hstream : c.inputStream = []) (rxds : List (Int × Chunk))
    (htime : Client.inTime c.lastFrameFlag (delivered rxds))
    (hbytes : (stream (delivered rxds)).map Prod.fst <+: events.flatMap TcpEvent.frame)
    (capacities : List Nat) (out : Bytes) (c' : Client) (rest : List (Int × Chunk))
    (h : c.recvAll capacities rxds = some (out, c', rest)) :
    out <+: (tcpStream events).flatten ↔
      List.replicate capacities.sum tcpRecv <+: (tcpStream events).flatten := by
  obtain ⟨used, rfl, hlength, hout⟩ := Client.recvAll_spec htime h
  rw [hframe, hstream, List.nil_append] at hout
  rw [← hlength]
  apply marked_prefix_iff
  have hframes : events.flatMap TcpEvent.frame
      = (events.map TcpEvent.payload).flatMap pppFrame := by
    rw [List.flatMap_map]
    exact congrArg (events.flatMap ·) (funext TcpEvent.frame_eq)
  obtain ⟨segs, hsplit, haccepted⟩ := split_pppFrames (events.map TcpEvent.payload)
    (List.forall_mem_map.mpr fun e _ => e.payload_ne_nil)
  have hall : Client.contents c.beyond segs = (tcpStream events).flatMap (tcpRecv :: ·) := by
    rw [Client.contents, haccepted, content_payloads]
  -- the segments so far are the first of those of all frames
  have hused : (stream (delivered used)).map Prod.fst
      <+: (events.map TcpEvent.payload).flatMap pppFrame := by
    rw [← hframes]
    refine List.IsPrefix.trans ?_ hbytes
    rw [delivered_append, stream_append, List.map_append]
    exact List.prefix_append _ _
  obtain ⟨later, hlater⟩ :=
    Segments.split_prefix pppFlagChar [] (hused.map Segments.Input.symbol)
  have hsegs : segs = _ ++ later := (congrArg Prod.snd hsplit).symm.trans hlater.symm
  rw [← hall, hsegs, Client.contents_append]
  refine ⟨c'.inputStream ++ Client.contents c.beyond later, ?_⟩
  rw [← List.append_assoc, hout]
  rfl

/-- The client at its start. -/
def Client.start : Client := ⟨[], [], 0, [], [], 0⟩

/-- The chunk `01 02` in one frame: the first two bytes that are handed out are `52 01`. -/
theorem header_in_stream :
    let rxds := [(0, chunkAt 0 (TcpEvent.frame (.incoming [1, 2])))]
    Client.inTime 0 (delivered rxds) ∧
      (stream (delivered rxds)).map Prod.fst <+: [TcpEvent.incoming [1, 2]].flatMap TcpEvent.frame ∧
      (Client.start.recvAll [2] rxds).map Prod.fst = some [0x52, 1] ∧
      ¬ [0x52, 1] <+: (tcpStream [.incoming [1, 2]]).flatten := by
  decide

/-- The connection opens, and the first of the bytes `52 07` is asked for. -/
theorem tunnel_stream_iff_one :
    let events := [TcpEvent.connected true, .incoming [0x52, 7]]
    [0x52] <+: (tcpStream events).flatten ↔
      List.replicate [1].sum tcpRecv <+: (tcpStream events).flatten :=
  tunnel_stream_iff [.connected true, .incoming [0x52, 7]] Client.start rfl rfl
    [(11, chunkAt 0 [5]), (0, chunkAt 0 (TcpEvent.frame (.connected true))),
      (0, chunkAt 0 (TcpEvent.frame (.incoming [0x52, 7])))] (by decide) (by decide) [1] _ _ _ rfl

end ZenohProxy
