import ZenohProxy.Ppp.Link

/-!
# The client of the serial TCP tunnel

The proxy of `src-pico` puts a header byte before each chunk of the TCP stream and sends both
in a frame; the state of the connection goes in frames of the header alone. The client of
`src_client/unix_serial.cpp` takes frames off the serial line and keeps what the data frames
hold in `_inputStream`, from which `recvData` hands out as much as it is asked for.

`Client.handleRxd` has the loop of `FrameExtractor::handleRxd`, so it refines to the splitter
of `Lib/Segments.lean` in the same way: `handleChunks_eq`.
-/

namespace ZenohProxy

def tcpRecv : UInt8 := 0x52
def tcpConnected : UInt8 := 0x63
def tcpDisconnected : UInt8 := 0x64

/-! ## The proxy -/

def headerFrame (header : UInt8) (data : Bytes) : Bytes := pppFrame ([header] ++ data)

def cmdFrame (header : UInt8) : Bytes := pppFrame [header]

/-- What the TCP session reports to `main`. -/
inductive TcpEvent where
  | incoming (data : Bytes)
  | connected (isConnected : Bool)
  deriving DecidableEq

/-- What `main` sends on the serial line for it. -/
def TcpEvent.frame : TcpEvent → Bytes
  | .incoming data => headerFrame tcpRecv data
  | .connected isConnected => cmdFrame (if isConnected then tcpConnected else tcpDisconnected)

/-! ## The client -/

/-- The variables of the client. -/
structure Client where
  inputStream : Bytes
  eventStream : Bytes
  lastFrameFlag : UInt64
  inputFrame : Bytes
  cleanData : Bytes
  /-- What `_cleanData[0]` reads when the vector is empty. -/
  beyond : UInt8

/-- `_frameTimeout`, which is longer here. -/
def clientTimeout : UInt64 := 2000

namespace Client

/-- What is done with a payload. -/
def handlePayload (c : Client) (cleanData : Bytes) : Client × Bool :=
  let event := cleanData.headD c.beyond
  let c := { c with cleanData }
  if event = tcpRecv then ({ c with inputStream := c.inputStream ++ cleanData }, true)
  else if event = tcpConnected then
    ({ c with eventStream := c.eventStream ++ [tcpConnected] }, true)
  else if event = tcpDisconnected then
    ({ c with eventStream := c.eventStream ++ [tcpDisconnected] }, true)
  else (c, false)

def handleFrame (c : Client) (bs : Bytes) : Client × Bool :=
  if bs.length = 0 then (c, false)
  else
    let (ok, cleanData) := pppDeframe bs
    if ok then c.handlePayload cleanData else ({ c with cleanData }, false)

/-- The body of the loop of `handleRxd`. -/
def handleByte (c : Client) (b : UInt8 × UInt64) : Client :=
  if b.1 = pppFlagChar then
    let c := { c with lastFrameFlag := b.2 }
    { (c.handleFrame c.inputFrame).1 with inputFrame := [] }
  else { c with inputFrame := c.inputFrame ++ [b.1] }

def handleRxd (c : Client) (bs : Chunk) : Client :=
  let c := bs.bytes.foldl handleByte c
  if clientTimeout < bs.done - c.lastFrameFlag then { c with inputFrame := [] } else c

/-- The body of the loop of `recvData`, with what `rxd` returned. -/
def onRxd (c : Client) (rc : Int) (rxdBuffer : Chunk) : Client :=
  if rc = 0 then if rxdBuffer.bytes.length = 0 then c else c.handleRxd rxdBuffer else c

/-- The loop of `recvData`: the returns of `rxd` that are left. Without one it is still
waiting. -/
def recvLoop (capacity : Nat) (c : Client) :
    List (Int × Chunk) → Option (Client × List (Int × Chunk))
  | [] => if c.inputStream.length < capacity then none else some (c, [])
  | (rc, rxdBuffer) :: rxds =>
    if c.inputStream.length < capacity then recvLoop capacity (c.onRxd rc rxdBuffer) rxds
    else some (c, (rc, rxdBuffer) :: rxds)

/-- `recvData`, with what it puts into the buffer. -/
def recvData (c : Client) (capacity : Nat) (rxds : List (Int × Chunk)) :
    Option (Bytes × Client × List (Int × Chunk)) :=
  match c.recvLoop capacity rxds with
  | none => none
  | some (c, rxds) =>
    some (c.inputStream.take capacity,
      { c with inputStream := c.inputStream.drop capacity }, rxds)

/-- Successive calls, with all they hand out. -/
def recvAll (c : Client) : List Nat → List (Int × Chunk) →
    Option (Bytes × Client × List (Int × Chunk))
  | [], rxds => some ([], c, rxds)
  | capacity :: capacities, rxds =>
    match c.recvData capacity rxds with
    | none => none
    | some (buffer, c, rxds) =>
      match c.recvAll capacities rxds with
      | none => none
      | some (rest, c, rxds) => some (buffer ++ rest, c, rxds)

/-! ## Refinement to the splitter -/

/-- What a payload adds to `_inputStream`. -/
def content (beyond : UInt8) (cleanData : Bytes) : Bytes :=
  if cleanData.headD beyond = tcpRecv then cleanData else []

/-- What segments add to it. -/
def contents (beyond : UInt8) (segs : List Bytes) : Bytes :=
  (segs.filterMap accepted).flatMap (content beyond)

theorem contents_append (beyond : UInt8) (segs segs' : List Bytes) :
    contents beyond (segs ++ segs') = contents beyond segs ++ contents beyond segs' := by
  rw [contents, List.filterMap_append, List.flatMap_append]
  rfl

/-- What a segment adds depends on what `ppp_deframe` makes of it. -/
theorem contents_singleton (beyond : UInt8) (seg : Bytes) :
    contents beyond [seg]
      = if (pppDeframe seg).1 then content beyond (pppDeframe seg).2 else [] := by
  by_cases hok : (pppDeframe seg).1 = true
  · simp [contents, accepted, hok]
  · simp [contents, accepted, hok]

section

variable (c : Client)

theorem handlePayload_eq (cleanData : Bytes) :
    (c.handlePayload cleanData).1.inputStream = c.inputStream ++ content c.beyond cleanData ∧
      (c.handlePayload cleanData).1.lastFrameFlag = c.lastFrameFlag ∧
      (c.handlePayload cleanData).1.beyond = c.beyond := by
  unfold handlePayload content
  by_cases hrecv : cleanData.headD c.beyond = tcpRecv
  · simp only [if_pos hrecv, and_self]
  -- the other events leave the stream alone
  · simp only [if_neg hrecv, List.append_nil]
    split
    · exact ⟨rfl, rfl, rfl⟩
    · split <;> exact ⟨rfl, rfl, rfl⟩

theorem handleFrame_eq (bs : Bytes) :
    (c.handleFrame bs).1.inputStream = c.inputStream ++ contents c.beyond [bs] ∧
      (c.handleFrame bs).1.lastFrameFlag = c.lastFrameFlag ∧
      (c.handleFrame bs).1.beyond = c.beyond := by
  rw [contents_singleton, handleFrame]
  by_cases hempty : bs.length = 0
  · obtain rfl := List.eq_nil_of_length_eq_zero hempty
    simp [pppDeframe]
  · rw [if_neg hempty]
    cases hok : (pppDeframe bs).1 with
    | true =>
      simp only [hok, if_true]
      exact c.handlePayload_eq _
    | false => simp [hok]

/-- A byte does what it does to the splitter, and a segment adds its content. -/
theorem handleByte_eq (b : UInt8 × UInt64) :
    (c.handleByte b).inputFrame = (Segments.step pppFlagChar c.inputFrame (.symbol b.1)).1 ∧
      (c.handleByte b).inputStream = c.inputStream
        ++ contents c.beyond (Segments.step pppFlagChar c.inputFrame (.symbol b.1)).2 ∧
      (c.handleByte b).lastFrameFlag = (if b.1 = pppFlagChar then b.2 else c.lastFrameFlag) ∧
      (c.handleByte b).beyond = c.beyond := by
  by_cases hflag : b.1 = pppFlagChar
  · obtain ⟨hstream, hlast, hbeyond⟩ :=
      handleFrame_eq { c with lastFrameFlag := b.2 } c.inputFrame
    have hstep : Segments.step pppFlagChar c.inputFrame (.symbol b.1) = ([], [c.inputFrame]) :=
      if_pos hflag
    rw [hstep, handleByte, if_pos hflag, if_pos hflag]
    exact ⟨rfl, hstream, hlast, hbeyond⟩
  · have hstep : Segments.step pppFlagChar c.inputFrame (.symbol b.1)
        = (c.inputFrame ++ [b.1], []) := if_neg hflag
    rw [hstep, handleByte, if_neg hflag, if_neg hflag]
    exact ⟨rfl, (List.append_nil _).symm, rfl, rfl⟩

end

theorem handleBytes_eq (bs : List (UInt8 × UInt64)) (c : Client) :
    let r := Segments.split pppFlagChar c.inputFrame (Segments.symbols (bs.map Prod.fst))
    (bs.foldl handleByte c).inputFrame = r.1 ∧
      (bs.foldl handleByte c).inputStream = c.inputStream ++ contents c.beyond r.2 ∧
      (bs.foldl handleByte c).lastFrameFlag = lastFlagAfter c.lastFrameFlag bs ∧
      (bs.foldl handleByte c).beyond = c.beyond := by
  induction bs generalizing c with
  | nil => exact ⟨rfl, (List.append_nil _).symm, rfl, rfl⟩
  | cons b bs ih =>
    obtain ⟨hframe, hstream, hlast, hbeyond⟩ := c.handleByte_eq b
    obtain ⟨hframes, hstreams, hlasts, hbeyonds⟩ := ih (c.handleByte b)
    rw [hframe] at hframes hstreams
    rw [show Segments.symbols ((b :: bs).map Prod.fst)
      = .symbol b.1 :: Segments.symbols (bs.map Prod.fst) from rfl, Segments.split_cons]
    refine ⟨hframes, ?_, ?_, hbeyonds.trans hbeyond⟩
    · rw [contents_append, ← List.append_assoc, ← hstream, ← hbeyond]
      exact hstreams
    · rw [lastFlagAfter, ← hlast]
      exact hlasts

/-- No chunk ends later than the timeout after the last flag. -/
def inTime (last : UInt64) : List Chunk → Bool
  | [] => true
  | bs :: rest =>
    !(clientTimeout < bs.done - lastFlagAfter last bs.bytes)
      && inTime (lastFlagAfter last bs.bytes) rest

theorem lastFlagAfter_append (last : UInt64) (bs bs' : List (UInt8 × UInt64)) :
    lastFlagAfter last (bs ++ bs') = lastFlagAfter (lastFlagAfter last bs) bs' := by
  induction bs generalizing last with
  | nil => rfl
  | cons b bs ih => exact ih _

theorem inTime_append (last : UInt64) (cs cs' : List Chunk) :
    inTime last (cs ++ cs')
      = (inTime last cs && inTime (lastFlagAfter last (stream cs)) cs') := by
  induction cs generalizing last with
  | nil => rfl
  | cons bs cs ih =>
    rw [List.cons_append, inTime, inTime, ih, Bool.and_assoc]
    rw [show stream (bs :: cs) = bs.bytes ++ stream cs from rfl, lastFlagAfter_append]

/-- **Refinement.** Without timeouts the client keeps what the splitter keeps for all bytes
together, and the segments add their content. -/
theorem handleChunks_eq (cs : List Chunk) (c : Client) (htime : inTime c.lastFrameFlag cs) :
    let r := Segments.split pppFlagChar c.inputFrame (Segments.symbols ((stream cs).map Prod.fst))
    (cs.foldl handleRxd c).inputFrame = r.1 ∧
      (cs.foldl handleRxd c).inputStream = c.inputStream ++ contents c.beyond r.2 ∧
      (cs.foldl handleRxd c).lastFrameFlag = lastFlagAfter c.lastFrameFlag (stream cs) ∧
      (cs.foldl handleRxd c).beyond = c.beyond := by
  induction cs generalizing c with
  | nil => exact ⟨rfl, (List.append_nil _).symm, rfl, rfl⟩
  | cons bs cs ih =>
    simp only [inTime, Bool.and_eq_true, Bool.not_eq_true', decide_eq_false_iff_not] at htime
    obtain ⟨hframe, hstream, hlast, hbeyond⟩ := handleBytes_eq bs.bytes c
    have hrxd : c.handleRxd bs = bs.bytes.foldl handleByte c := by
      simp only [handleRxd, hlast, if_neg htime.1]
    obtain ⟨hframes, hstreams, hlasts, hbeyonds⟩ :=
      ih (c.handleRxd bs) (by rw [hrxd, hlast]; exact htime.2)
    rw [hrxd, hframe] at hframes hstreams
    rw [hstream, hbeyond] at hstreams
    rw [hrxd, hlast] at hlasts
    rw [hrxd, hbeyond] at hbeyonds
    rw [show stream (bs :: cs) = bs.bytes ++ stream cs from rfl, List.map_append,
      Segments.symbols_append, Segments.split_append, List.foldl_cons, hrxd, lastFlagAfter_append]
    refine ⟨hframes, ?_, hlasts, hbeyonds⟩
    rw [hstreams, contents_append, List.append_assoc]

end Client

end ZenohProxy
