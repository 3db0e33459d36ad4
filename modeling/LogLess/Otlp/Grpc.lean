import LogLess.Lib.Assoc
import LogLess.Otlp.H2
import LogLess.Otlp.Http

/-!
# A connection of the gRPC receiver

Frames come one after another, and `handleFrame` keeps a stream for each request that is not
complete. What decodes header blocks, unpacks gzip and reads a message is a parameter. A connection
may also be lost at any time; what is counted for a request comes before its answer is written.
-/

namespace LogLess.Grpc

open Counting (Counted count)
open Frames (Bytes)
open H2 (Frame FrameHeader FrameKind H2Error stripPadding)
open Otlp (Accepted Counter Decoded ledger)

namespace status

def ok : ℕ := 0
def invalidArgument : ℕ := 3
def resourceExhausted : ℕ := 8
def unimplemented : ℕ := 12
def unavailable : ℕ := 14

end status

def exportPath : Text := "/opentelemetry.proto.collector.logs.v1.LogsService/Export".toList

/-- The window of a stream, and what the window of the connection is lifted by. -/
def window : ℕ := 8 * 1024 * 1024

def maxConcurrentStreams : ℕ := 128

structure GrpcConfig where
  maxMessageBytes : ℕ
  maxDecompressedBytes : ℕ
deriving DecidableEq

/-- One request that is not complete. -/
structure Stream where
  path : Text
  contentType : Text
  grpcEncoding : Text
  headerFragment : Bytes
  headersDone : Bool
  body : Bytes
  tooLarge : Bool
deriving DecidableEq

namespace Stream

def default : Stream := ⟨[], [], [], [], false, [], false⟩

/-- One header of a request; the others are not kept. -/
def header (stream : Stream) (name value : Bytes) : Stream :=
  let name := asciiLower (Utf8.lossy name)
  let value := Utf8.lossy value
  if name = ":path".toList then { stream with path := value }
  else if name = "content-type".toList then { stream with contentType := asciiLower value }
  else if name = "grpc-encoding".toList then { stream with grpcEncoding := asciiLower value }
  else stream

/-- A body that grows too large is thrown away, and the stream remembers it. -/
def receive (stream : Stream) (maxMessageBytes : ℕ) (body : Bytes) : Stream :=
  if maxMessageBytes < stream.body.length + body.length then
    { stream with tooLarge := true, body := [] }
  else if !stream.tooLarge then { stream with body := stream.body ++ body }
  else stream

end Stream

/-- Header blocks with the tables of either side, gzip up to a number of bytes, and what reads a
message. -/
structure Services (δ ε : Type) where
  decode : δ → Bytes → Except Text (List (Bytes × Bytes) × δ)
  setMaxTableSize : ε → ℕ → ε
  encode : ε → List (Text × Text) → Bytes × ε
  gunzip : ℕ → Bytes → Except Text Bytes
  decodeRequest : Bytes → Except Text Decoded

/-- What is written to the client. -/
inductive Sent where
  | settings (values : List (ℕ × ℕ))
  | settingsAck
  | pingAck (payload : Bytes)
  | windowUpdate (streamId increment : ℕ)
  | rstStream (streamId code : ℕ)
  | headers (streamId : ℕ) (block : Bytes) (endStream : Bool)
  | data (streamId : ℕ) (payload : Bytes)
deriving DecidableEq

structure Connection (δ ε : Type) where
  streams : List (ℕ × Stream)
  decoder : δ
  encoder : ε
  out : List Sent
  connectionCreditUsed : ℕ

namespace Connection

variable {δ ε : Type}

/-- A connection once its preface is read. -/
def start (decoder : δ) (encoder : ε) : Connection δ ε where
  streams := []
  decoder := decoder
  encoder := encoder
  out :=
    [.settings [(H2.setting.maxConcurrentStreams, maxConcurrentStreams),
        (H2.setting.initialWindowSize, window),
        (H2.setting.maxFrameSize, H2.defaultMaxFrameSize), (H2.setting.enablePush, 0)],
      .windowUpdate 0 window]
  connectionCreditUsed := 0

def write (c : Connection δ ε) (frame : Sent) : Connection δ ε := { c with out := c.out ++ [frame] }

/-! ## Answers -/

def percentByte (b : UInt8) : Text :=
  if 0x20 ≤ b ∧ b ≤ 0x7E ∧ b ≠ 0x25 then [Char.ofNat b.toNat]
  else ['%', Nat.digitChar (b.toNat / 16) |>.toUpper, Nat.digitChar (b.toNat % 16) |>.toUpper]

def percentEncode (message : Text) : Text := (Utf8.encode message).flatMap percentByte

def writeHeaders (s : Services δ ε) (c : Connection δ ε) (streamId : ℕ)
    (headers : List (Text × Text)) (endStream : Bool) : Connection δ ε :=
  let (block, encoder) := s.encode c.encoder headers
  { c with encoder := encoder }.write (.headers streamId block endStream)

def grpcOkHeaders : List (Text × Text) :=
  [(":status".toList, "200".toList), ("content-type".toList, "application/grpc".toList)]

def trailersOnly (s : Services δ ε) (c : Connection δ ε) (streamId code : ℕ) (message : Text) :
    Connection δ ε :=
  c.writeHeaders s streamId (grpcOkHeaders ++
    [("grpc-status".toList, Decimal.ofNat code), ("grpc-message".toList, percentEncode message)])
    true

/-- The message of a body: a byte that says whether it is compressed, its length and itself. -/
def unframe (s : Services δ ε) (body : Bytes) (encoding : Text) (maxDecompressed : ℕ) :
    Except Text Bytes :=
  match body with
  | [] => .error "empty request body".toList
  | compressed :: a :: b :: c :: d :: rest =>
    let length := H2.ofBe [a, b, c, d]
    if rest.length < length then
      .error ("gRPC frame claims ".toList ++ Decimal.ofNat length ++ " bytes, got ".toList
        ++ Decimal.ofNat rest.length)
    else
      let payload := rest.take length
      if compressed = 0 then .ok payload
      else if compressed = 1 then
        if encoding ≠ "gzip".toList then
          .error ("compressed message with unsupported encoding '".toList ++ encoding ++ ['\''])
        else
          match s.gunzip (maxDecompressed + 1) payload with
          | .error e => .error ("bad gzip: ".toList ++ e)
          | .ok out =>
            if maxDecompressed < out.length then
              .error "decompressed message exceeds the configured limit".toList
            else .ok out
      else .error ("unknown compressed-flag ".toList ++ Decimal.ofNat compressed.toNat)
  | _ => .error "truncated gRPC frame header".toList

/-- A request that its headers or its body are wrong for. -/
def badRequest (s : Services δ ε) (c : Connection δ ε) (streamId code : ℕ) (message : Text) :
    Counted Counter (Connection δ ε) := do
  count .badRequest 1
  return c.trailersOnly s streamId code message

/-- The records of a message go to the sink. -/
def deliver (s : Services δ ε) (c : Connection δ ε) (streamId : ℕ) (records : List LogRecord) :
    Accepted → Counted Counter (Connection δ ε)
  | .all => do
    count .accepted 1
    count .records records.length
    let c := (c.writeHeaders s streamId grpcOkHeaders false).write (.data streamId [0, 0, 0, 0, 0])
    return c.writeHeaders s streamId [("grpc-status".toList, Decimal.ofNat status.ok)] true
  | .rejected => do
    count .rejected 1
    return c.trailersOnly s streamId status.unavailable "pipeline full, retry".toList

/-- The answer to a request that is complete. -/
def answer (cfg : GrpcConfig) (s : Services δ ε) (sink : List LogRecord → Accepted)
    (c : Connection δ ε) (streamId : ℕ) (stream : Stream) :
    Counted Counter (Connection δ ε) := do
  count .requests 1
  if stream.tooLarge then do
    count .tooLarge 1
    return c.trailersOnly s streamId status.resourceExhausted
      "message exceeds max_message_bytes".toList
  else if !"application/grpc".toList.isPrefixOf stream.contentType then
    c.badRequest s streamId status.invalidArgument "content-type must be application/grpc".toList
  else if stream.path ≠ exportPath then
    c.badRequest s streamId status.unimplemented "only LogsService/Export is implemented".toList
  else
    match unframe s stream.body stream.grpcEncoding cfg.maxDecompressedBytes with
    | .error reason => c.badRequest s streamId status.invalidArgument reason
    | .ok message =>
      match s.decodeRequest message with
      | .error e =>
        c.badRequest s streamId status.invalidArgument ("malformed OTLP: ".toList ++ e)
      | .ok decoded => do
        count .droppedUpstream decoded.droppedUpstream
        c.deliver s streamId decoded.records (sink decoded.records)

def finishStream (cfg : GrpcConfig) (s : Services δ ε) (sink : List LogRecord → Accepted)
    (c : Connection δ ε) (streamId : ℕ) :
    Counted Counter (Except H2Error (Connection δ ε)) :=
  match Assoc.get c.streams streamId with
  | none => return .ok c
  | some stream =>
    if stream.headersDone then
      .ok <$> { c with streams := Assoc.erase c.streams streamId }.answer cfg s sink streamId stream
    else return .error ⟨H2.errorCode.protocolError, "stream ended mid-headers".toList⟩

/-! ## Frames -/

/-- The stream with the headers of a block that is complete. -/
def readHeaders (s : Services δ ε) (decoder : δ) (stream : Stream) :
    Except H2Error (Stream × δ) :=
  match s.decode decoder stream.headerFragment with
  | .error e => .error ⟨H2.errorCode.compressionError, e⟩
  | .ok (decoded, decoder) =>
    .ok (decoded.foldl (fun stream h => stream.header h.1 h.2)
      { stream with headerFragment := [], headersDone := true }, decoder)

/-- `HEADERS` and `CONTINUATION`, and whether the stream is finished after it. Only the first of the
two is held against the number of streams. -/
def handleHeaders (s : Services δ ε) (c : Connection δ ε) (f : Frame) :
    Except H2Error (Connection δ ε × Bool) :=
  let h := f.header
  if h.streamId = 0 then .error ⟨H2.errorCode.protocolError, "HEADERS on stream 0".toList⟩
  else if h.kind = .headers ∧ maxConcurrentStreams ≤ c.streams.length then
    .ok (c.write (.rstStream h.streamId H2.errorCode.refusedStream), false)
  else do
    let fragment ← stripPadding f.payload h.flags (h.kind = .headers)
    let opened := (Assoc.get c.streams h.streamId).getD .default
    let stream := { opened with headerFragment := opened.headerFragment ++ fragment }
    let (stream, decoder) ←
      (if h.has H2.flag.endHeaders then readHeaders s c.decoder stream
        else .ok (stream, c.decoder) : Except H2Error (Stream × δ))
    return ({ c with streams := Assoc.insert c.streams h.streamId stream, decoder := decoder },
      h.has H2.flag.endStream)

/-- Credit on the connection is given back once half the window is used. -/
def useCredit (c : Connection δ ε) (length : ℕ) : Connection δ ε :=
  let used := c.connectionCreditUsed + length
  if window / 2 ≤ used then
    { c.write (.windowUpdate 0 used) with connectionCreditUsed := 0 }
  else { c with connectionCreditUsed := used }

/-- `DATA`, and whether the stream is finished after it. -/
def handleData (cfg : GrpcConfig) (c : Connection δ ε) (f : Frame) :
    Except H2Error (Connection δ ε × Bool) := do
  let h := f.header
  let body ← stripPadding f.payload h.flags false
  let c := c.useCredit h.length
  let c :=
    match Assoc.get c.streams h.streamId with
    | none => c
    | some stream =>
      let stream := stream.receive cfg.maxMessageBytes body
      let c := { c with streams := Assoc.insert c.streams h.streamId stream }
      if 0 < h.length then c.write (.windowUpdate h.streamId h.length) else c
  return (c, h.has H2.flag.endStream)

/-- The settings of the peer, of which only the size of its table matters. -/
def handleSettings (s : Services δ ε) (c : Connection δ ε) (f : Frame) :
    Except H2Error (Connection δ ε) :=
  if f.header.has H2.flag.ack then .ok c
  else do
    let settings ← H2.parseSettings f.payload
    let encoder := settings.foldl (fun encoder setting =>
      if setting.1 = H2.setting.headerTableSize then s.setMaxTableSize encoder setting.2
      else encoder) c.encoder
    return { c with encoder := encoder }.write .settingsAck

/-- A frame up to the end of its stream, and whether that is reached. -/
def receive (cfg : GrpcConfig) (s : Services δ ε) (c : Connection δ ε) (f : Frame) :
    Except H2Error (Connection δ ε × Bool) :=
  match f.header.kind with
  | .settings => (·, false) <$> c.handleSettings s f
  | .ping =>
    .ok (if f.header.has H2.flag.ack then c else c.write (.pingAck f.payload), false)
  | .windowUpdate => (fun _ => (c, false)) <$> H2.parseWindowUpdate f.payload
  | .goaway => .error ⟨H2.errorCode.noError, "client sent GOAWAY".toList⟩
  | .rstStream => .ok ({ c with streams := Assoc.erase c.streams f.header.streamId }, false)
  | .priority => .ok (c, false)
  | .pushPromise => .error ⟨H2.errorCode.protocolError, "clients must not push".toList⟩
  | .headers => c.handleHeaders s f
  | .continuation => c.handleHeaders s f
  | .data => c.handleData cfg f
  | .other _ => .ok (c, false)

def handleFrame (cfg : GrpcConfig) (s : Services δ ε) (sink : List LogRecord → Accepted)
    (c : Connection δ ε) (f : Frame) : Counted Counter (Except H2Error (Connection δ ε)) :=
  match c.receive cfg s f with
  | .error e => return .error e
  | .ok (c, false) => return .ok c
  | .ok (c, true) => c.finishStream cfg s sink f.header.streamId

/-! ## What is counted -/

variable (cfg : GrpcConfig) (s : Services δ ε) (sink : List LogRecord → Accepted)
  (c : Connection δ ε)

theorem exits_deliver (streamId : ℕ) (records : List LogRecord) (accepted : Accepted) :
    ∃ log c', c.deliver s streamId records accepted = ⟨log, some c'⟩ ∧ ledger.Exits log := by
  cases accepted with
  | all => exact ⟨_, _, rfl, rfl, rfl⟩
  | rejected => exact ⟨_, _, rfl, rfl, rfl⟩

/-- A request that is complete is counted once, whatever it asks for. -/
theorem answer_once (streamId : ℕ) (stream : Stream) :
    ∃ log c', c.answer cfg s sink streamId stream = ⟨log, some c'⟩ ∧ ledger.Once log := by
  rw [answer, Counting.count_bind]
  split
  · exact ⟨_, _, rfl, rfl, rfl⟩
  · split
    · exact ⟨_, _, rfl, rfl, rfl⟩
    · split
      · exact ⟨_, _, rfl, rfl, rfl⟩
      · split
        · exact ⟨_, _, rfl, rfl, rfl⟩
        · split
          · exact ⟨_, _, rfl, rfl, rfl⟩
          · next decoded _ =>
            obtain ⟨log, c', hdeliver, hexits⟩ :=
              c.exits_deliver s streamId decoded.records (sink decoded.records)
            rw [Counting.count_bind, hdeliver]
            exact ⟨_, _, rfl, (hexits.beside ⟨rfl, rfl⟩).once ⟨rfl, rfl⟩⟩

/-- The request that a frame completes: its stream ends, and had all of its headers. -/
def completed (f : Frame) : Option Stream :=
  match c.receive cfg s f with
  | .ok (c, true) => (Assoc.get c.streams f.header.streamId).filter fun stream => stream.headersDone
  | _ => none

theorem handleFrame_once (f : Frame) :
    if (c.completed cfg s f).isSome then ledger.Once (c.handleFrame cfg s sink f).log
    else ledger.Never (c.handleFrame cfg s sink f).log := by
  rw [completed, handleFrame]
  rcases c.receive cfg s f with e | ⟨c', finished⟩
  · exact ⟨rfl, rfl⟩
  · cases finished with
    | false => exact ⟨rfl, rfl⟩
    | true =>
      simp only
      rw [finishStream]
      cases Assoc.get c'.streams f.header.streamId with
      | none => exact ⟨rfl, rfl⟩
      | some stream =>
        cases hdone : stream.headersDone with
        | false =>
          simp only [Option.filter_some, hdone]
          exact ⟨rfl, rfl⟩
        | true =>
          simp only [Option.filter_some, hdone]
          obtain ⟨log, answered, hanswer, honce⟩ :=
            { c' with streams := Assoc.erase c'.streams f.header.streamId }.answer_once cfg s sink
              f.header.streamId stream
          rw [hanswer, Counting.map_eq]
          exact honce

end Connection

/-! ## The receiver -/

/-- A frame, the connection it comes on and the pipeline. -/
structure Arrival (δ ε : Type) where
  connection : Connection δ ε
  frame : Frame
  sink : List LogRecord → Accepted

namespace Arrival

variable {δ ε : Type} (cfg : GrpcConfig) (s : Services δ ε) (a : Arrival δ ε)

def result : Counted Counter (Except H2Error (Connection δ ε)) :=
  a.connection.handleFrame cfg s a.sink a.frame

def log : List (Counter × ℕ) := (a.result cfg s).log

/-- The request it completes is one for the export of logs. -/
def counted : Bool :=
  (a.connection.completed cfg s a.frame).any fun stream => stream.path = exportPath

/-- The ledger has it once, or not at all. -/
def Exact : Prop := if a.counted cfg s then ledger.Once (a.log cfg s) else ledger.Never (a.log cfg s)

/-- It completes no request for anything else. -/
def fine : Bool :=
  (a.connection.completed cfg s a.frame).all fun stream => stream.path = exportPath

theorem even_log : ledger.Even (a.log cfg s) := by
  have honce := a.connection.handleFrame_once cfg s a.sink a.frame
  split at honce
  · exact honce.even
  · exact honce.even

theorem exact_iff : a.Exact cfg s ↔ a.fine cfg s = true := by
  have honce := a.connection.handleFrame_once cfg s a.sink a.frame
  rw [Exact, counted, fine]
  cases hcompleted : a.connection.completed cfg s a.frame with
  | none =>
    rw [hcompleted] at honce
    exact iff_of_true honce rfl
  | some stream =>
    rw [hcompleted] at honce
    by_cases hpath : stream.path = exportPath
    · simp only [Option.any_some, Option.all_some, hpath, decide_true, if_true]
      exact iff_of_true honce trivial
    · simp only [Option.any_some, Option.all_some, hpath, decide_false]
      refine iff_of_false (fun hnever => ?_) Bool.false_ne_true
      have hzero : (1 : ℕ) = 0 := honce.1.symm.trans hnever.1
      cases hzero

end Arrival

/-- Its connections, of which some have ended, and what the frames count. -/
structure Receiver (δ ε : Type) where
  connections : List (Option (Connection δ ε))
  world : Counting.World Counter (Arrival δ ε)

inductive Event where
  | accept
  | frame (connection : ℕ) (f : Frame) (sink : List LogRecord → Accepted)
  | lost (connection : ℕ)
  | count (thread : ℕ)

namespace Receiver

variable {δ ε : Type} (cfg : GrpcConfig) (s : Services δ ε) (decoder : δ) (encoder : ε)

def start : Receiver δ ε := ⟨[], .start⟩

def step (r : Receiver δ ε) : Event → Receiver δ ε
  | .accept => { r with connections := r.connections ++ [some (.start decoder encoder)] }
  | .frame i f sink =>
    match r.connections[i]? with
    | some (some c) =>
      let a : Arrival δ ε := ⟨c, f, sink⟩
      { connections :=
          r.connections.set i ((a.result cfg s).value.bind fun outcome => outcome.toOption)
        world := r.world.step (Arrival.log cfg s) (.arrive a) }
    | _ => r
  | .lost i => { r with connections := r.connections.set i none }
  | .count t => { r with world := r.world.step (Arrival.log cfg s) (.count t) }

theorem holds_step {r : Receiver δ ε} (h : r.world.Holds (Arrival.log cfg s)) (e : Event) :
    (r.step cfg s decoder encoder e).world.Holds (Arrival.log cfg s) := by
  cases e with
  | accept => exact h
  | frame i f sink =>
    rw [step]
    split
    · next c _ => exact Counting.World.holds_step (Arrival.log cfg s) h (.arrive ⟨c, f, sink⟩)
    · exact h
  | lost i => exact h
  | count t => exact Counting.World.holds_step _ h _

theorem holds_run (events : List Event) :
    (Runs.run (step cfg s decoder encoder) start events).world.Holds (Arrival.log cfg s) := by
  have hstart : (start : Receiver δ ε).world.Holds (Arrival.log cfg s) := fun _ => rfl
  have hkeep : ∀ (r : Receiver δ ε) (e : Event), r.world.Holds (Arrival.log cfg s) →
      (r.step cfg s decoder encoder e).world.Holds (Arrival.log cfg s) :=
    fun _ e h => holds_step cfg s decoder encoder h e
  exact Runs.run_invariant hkeep hstart events

end Receiver

end LogLess.Grpc
