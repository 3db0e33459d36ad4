import LogLess.Lib.Capped
import LogLess.Otlp.Grpc

/-!
# Whole runs of a gRPC connection

What came on a connection is kept beside it: every frame with whether its stream was open, the parts
of the body of each open stream, the streams that were finished and what was counted. However the
frames of the streams are mixed and however a body is cut into frames, the parts are put together
again, the credit that was used is given back, and every request that is complete is answered once.
-/

namespace LogLess.Grpc

open Counting (amount)
open Frames (Bytes)
open H2 (Frame FrameKind H2Error stripPadding)
open Otlp (Accepted Counter ledger)

/-! ## One stream -/

namespace Stream

/-- The parts of a body are put together, or there are too many bytes of it. -/
structure Holds (max : ℕ) (parts : List Bytes) (stream : Stream) : Prop where
  body : stream.body = if parts.flatten.length ≤ max then parts.flatten else []
  tooLarge : stream.tooLarge = decide (max < parts.flatten.length)

theorem holds_default (max : ℕ) : Holds max [] default := by
  refine ⟨?_, ?_⟩
  · exact (ite_self _).symm
  · exact (decide_eq_false (Nat.not_lt_zero max)).symm

theorem Holds.length_le {max : ℕ} {parts : List Bytes} {stream : Stream}
    (h : Holds max parts stream) : stream.body.length ≤ max := by
  rw [h.body]
  split
  · next hle => exact hle
  · exact Nat.zero_le max

theorem Holds.receive {max : ℕ} {parts : List Bytes} {stream : Stream}
    (h : Holds max parts stream) (part : Bytes) :
    Holds max (parts ++ [part]) (stream.receive max part) := by
  have hflatten : (parts ++ [part]).flatten = parts.flatten ++ part := by
    rw [List.flatten_append, List.flatten_cons, List.flatten_nil, List.append_nil]
  have hlength : (parts.flatten ++ part).length = parts.flatten.length + part.length :=
    List.length_append
  obtain ⟨hbody, htooLarge⟩ := h
  rw [Stream.receive]
  by_cases hfits : parts.flatten.length ≤ max
  · rw [if_pos hfits] at hbody
    rw [decide_eq_false (Nat.not_lt.2 hfits)] at htooLarge
    rw [hbody, htooLarge, Bool.not_false, if_pos rfl]
    split
    · next hmore =>
      refine ⟨?_, ?_⟩
      · rw [hflatten, if_neg (by omega)]
      · rw [hflatten, hlength]
        exact (decide_eq_true hmore).symm
    · next hroom =>
      refine ⟨?_, ?_⟩
      · rw [hflatten, if_pos (by omega)]
      · rw [hflatten, hlength]
        exact (decide_eq_false hroom).symm
  · -- Once a body is too large, no part of it is kept.
    rw [if_neg hfits] at hbody
    rw [decide_eq_true (Nat.lt_of_not_le hfits)] at htooLarge
    have hgrown : Holds max (parts ++ [part]) { stream with tooLarge := true, body := [] } := by
      refine ⟨?_, ?_⟩
      · rw [hflatten, if_neg (by omega)]
      · rw [hflatten, hlength]
        exact (decide_eq_true (by omega)).symm
    split
    · exact hgrown
    · rw [htooLarge, Bool.not_true, if_neg Bool.false_ne_true]
      rwa [← hbody, ← htooLarge] at hgrown

/-- A header block says nothing about the body. -/
theorem Holds.header {max : ℕ} {parts : List Bytes} {stream : Stream}
    (h : Holds max parts stream) (name value : Bytes) :
    Holds max parts (stream.header name value) := by
  rw [Stream.header]
  split
  · exact ⟨h.body, h.tooLarge⟩
  · split
    · exact ⟨h.body, h.tooLarge⟩
    · split
      · exact ⟨h.body, h.tooLarge⟩
      · exact h

end Stream

/-! ## What is written -/

/-- What a frame gives back to a window. -/
def Sent.increment (streamId : ℕ) : Sent → ℕ
  | windowUpdate i n => if i = streamId then n else 0
  | _ => 0

/-- The stream that a frame ends. -/
def Sent.ended : Sent → Option ℕ
  | headers i _ true => some i
  | _ => none

def granted (streamId : ℕ) (out : List Sent) : ℕ := (out.map (Sent.increment streamId)).sum

theorem granted_append (streamId : ℕ) (out more : List Sent) :
    granted streamId (out ++ more) = granted streamId out + granted streamId more := by
  rw [granted, List.map_append, List.sum_append]
  rfl

/-- An answer on a stream: it ends the stream once and gives nothing back. -/
structure Reply (streamId : ℕ) (sent : List Sent) : Prop where
  ends : sent.filterMap Sent.ended = [streamId]
  grants : ∀ i, granted i sent = 0

namespace Connection

variable {δ ε : Type} (cfg : GrpcConfig) (s : Services δ ε) (sink : List LogRecord → Accepted)
  (c : Connection δ ε)

/-- The connection has written something more. -/
def Wrote (c' : Connection δ ε) (sent : List Sent) : Prop :=
  ∃ encoder, c' = { c with encoder := encoder, out := c.out ++ sent }

variable {s c} in
theorem Wrote.trans {c' c'' : Connection δ ε} {sent more : List Sent} (h : c.Wrote c' sent)
    (h' : c'.Wrote c'' more) : c.Wrote c'' (sent ++ more) := by
  obtain ⟨encoder, rfl⟩ := h
  obtain ⟨encoder', rfl⟩ := h'
  refine ⟨encoder', ?_⟩
  rw [List.append_assoc]

theorem wrote_write (frame : Sent) : c.Wrote (c.write frame) [frame] := ⟨c.encoder, rfl⟩

theorem wrote_headers (streamId : ℕ) (headers : List (Text × Text)) (endStream : Bool) :
    ∃ block, c.Wrote (c.writeHeaders s streamId headers endStream)
      [.headers streamId block endStream] :=
  ⟨(s.encode c.encoder headers).1, (s.encode c.encoder headers).2, rfl⟩

theorem trailersOnly_reply (streamId code : ℕ) (message : Text) :
    ∃ sent, c.Wrote (c.trailersOnly s streamId code message) sent ∧ Reply streamId sent := by
  obtain ⟨block, h⟩ := c.wrote_headers s streamId (grpcOkHeaders ++
    [("grpc-status".toList, Decimal.ofNat code), ("grpc-message".toList, percentEncode message)])
    true
  exact ⟨_, h, rfl, fun _ => rfl⟩

theorem badRequest_reply (streamId code : ℕ) (message : Text) :
    ∃ log c' sent,
      c.badRequest s streamId code message = ⟨log, some c'⟩ ∧ c.Wrote c' sent ∧
      Reply streamId sent := by
  obtain ⟨sent, h, hreply⟩ := c.trailersOnly_reply s streamId code message
  exact ⟨_, _, sent, rfl, h, hreply⟩

theorem deliver_reply (streamId : ℕ) (records : List LogRecord) (accepted : Accepted) :
    ∃ log c' sent,
      c.deliver s streamId records accepted = ⟨log, some c'⟩ ∧ c.Wrote c' sent ∧
      Reply streamId sent := by
  cases accepted with
  | all =>
    obtain ⟨block, hheaders⟩ := c.wrote_headers s streamId grpcOkHeaders false
    have hdata := wrote_write (c.writeHeaders s streamId grpcOkHeaders false)
      (.data streamId [0, 0, 0, 0, 0])
    obtain ⟨trailer, htrailers⟩ := wrote_headers s ((c.writeHeaders s streamId grpcOkHeaders
      false).write (.data streamId [0, 0, 0, 0, 0])) streamId
      [("grpc-status".toList, Decimal.ofNat status.ok)] true
    exact ⟨_, _, _, rfl, (hheaders.trans hdata).trans htrailers, rfl, fun _ => rfl⟩
  | rejected =>
    obtain ⟨sent, h, hreply⟩ := c.trailersOnly_reply s streamId status.unavailable
      "pipeline full, retry".toList
    exact ⟨_, _, sent, rfl, h, hreply⟩

/-- Every request is answered: its stream is ended once. -/
theorem answer_reply (streamId : ℕ) (stream : Stream) :
    ∃ log c' sent,
      c.answer cfg s sink streamId stream = ⟨log, some c'⟩ ∧ c.Wrote c' sent ∧
      Reply streamId sent := by
  have hbad : ∀ code message (extra : List (Counter × ℕ)), ∃ log c' sent,
      (⟨extra ++ (c.badRequest s streamId code message).log,
        (c.badRequest s streamId code message).value⟩ : Counting.Counted _ _)
          = ⟨log, some c'⟩ ∧
        c.Wrote c' sent ∧ Reply streamId sent := by
    intro code message extra
    obtain ⟨log, c', sent, heq, hwrote, hreply⟩ := c.badRequest_reply s streamId code message
    rw [heq]
    exact ⟨_, _, sent, rfl, hwrote, hreply⟩
  rw [answer, Counting.count_bind]
  split
  · obtain ⟨sent, h, hreply⟩ := c.trailersOnly_reply s streamId status.resourceExhausted
      "message exceeds max_message_bytes".toList
    exact ⟨_, _, sent, rfl, h, hreply⟩
  · split
    · exact hbad _ _ [(.requests, 1)]
    · split
      · exact hbad _ _ [(.requests, 1)]
      · split
        · exact hbad _ _ [(.requests, 1)]
        · split
          · exact hbad _ _ [(.requests, 1)]
          · next decoded _ =>
            obtain ⟨log, c', sent, heq, hwrote, hreply⟩ :=
              c.deliver_reply s streamId decoded.records (sink decoded.records)
            rw [Counting.count_bind, heq]
            exact ⟨_, _, sent, rfl, hwrote, hreply⟩

/-- What a frame can do before the end of its stream. -/
inductive Received (f : Frame) : Connection δ ε → Bool → Prop
  /-- An answer that is no request's, or the stream is given up. -/
  | quiet (streams : List (ℕ × Stream)) (encoder : ε) (sent : List Sent)
      (hkind : f.header.kind ≠ .data)
      (hstreams : streams = c.streams ∨ streams = Assoc.erase c.streams f.header.streamId)
      (hends : sent.filterMap Sent.ended = []) (hgrants : ∀ i, granted i sent = 0) :
      Received f { c with streams := streams, encoder := encoder, out := c.out ++ sent } false
  /-- A part of a header block. -/
  | block (stream : Stream) (decoder : δ) (finished : Bool) (hkind : f.header.kind ≠ .data)
      (hid : f.header.streamId ≠ 0)
      (hroom : c.streams.length < maxConcurrentStreams ∨ f.header.kind = .continuation)
      (hstream : ∀ max parts,
        ((Assoc.get c.streams f.header.streamId).getD .default).Holds max parts →
          stream.Holds max parts) :
      Received f { c with
        streams := Assoc.insert c.streams f.header.streamId stream, decoder := decoder } finished
  /-- A part of a body on a stream that is not open. -/
  | late (part : Bytes) (hkind : f.header.kind = .data)
      (hpart : stripPadding f.payload f.header.flags false = .ok part)
      (hnone : Assoc.get c.streams f.header.streamId = none) (finished : Bool) :
      Received f (c.useCredit f.header.length) finished
  /-- A part of a body. -/
  | part (part : Bytes) (stream : Stream) (hkind : f.header.kind = .data)
      (hpart : stripPadding f.payload f.header.flags false = .ok part)
      (hsome : Assoc.get c.streams f.header.streamId = some stream) (finished : Bool) :
      Received f { c.useCredit f.header.length with
        streams := Assoc.insert c.streams f.header.streamId
          (stream.receive cfg.maxMessageBytes part)
        out := (c.useCredit f.header.length).out ++
          if 0 < f.header.length then [.windowUpdate f.header.streamId f.header.length] else [] }
        finished

/-- What is used is given back, or remembered. -/
theorem useCredit_cases (n : ℕ) :
    ∃ sent used, c.useCredit n
        = { c with out := c.out ++ sent, connectionCreditUsed := used } ∧
      sent.filterMap Sent.ended = [] ∧ (∀ i, i ≠ 0 → granted i sent = 0) ∧
      granted 0 sent + used = c.connectionCreditUsed + n ∧ used < window / 2 := by
  rw [useCredit]
  split
  · refine ⟨[.windowUpdate 0 (c.connectionCreditUsed + n)], 0, rfl, rfl, fun i hi => ?_, ?_,
      ?_⟩
    · exact if_neg (Ne.symm hi)
    · rfl
    · decide
  · next hused =>
    refine ⟨[], c.connectionCreditUsed + n, ?_, rfl, fun _ _ => rfl, Nat.zero_add _, ?_⟩
    · rw [List.append_nil]
    · exact Nat.lt_of_not_le hused

theorem Received.same {f : Frame} (hkind : f.header.kind ≠ .data) : c.Received cfg f c false := by
  have h : c.Received cfg f { c with encoder := c.encoder, out := c.out ++ [] } false :=
    .quiet c.streams c.encoder [] hkind (.inl rfl) rfl fun _ => rfl
  rwa [List.append_nil] at h

variable {s} in
theorem holds_readHeaders {decoder decoder' : δ} {stream stream' : Stream}
    (h : readHeaders s decoder stream = .ok (stream', decoder')) {max : ℕ} {parts : List Bytes}
    (hholds : stream.Holds max parts) : stream'.Holds max parts := by
  have hfold : ∀ (headers : List (Bytes × Bytes)) (stream : Stream), stream.Holds max parts →
      (headers.foldl (fun stream h => stream.header h.1 h.2) stream).Holds max parts := by
    intro headers
    induction headers with
    | nil => exact fun stream hstream => hstream
    | cons header headers ih => exact fun stream hstream => ih _ (hstream.header _ _)
  rw [readHeaders] at h
  split at h
  · cases h
  · cases h
    exact hfold _ _ ⟨hholds.body, hholds.tooLarge⟩

theorem received_of_handleHeaders {f : Frame} {c' : Connection δ ε} {finished : Bool}
    (hkind : f.header.kind ≠ .data)
    (hblock : f.header.kind ≠ .headers → f.header.kind = .continuation)
    (h : c.handleHeaders s f = .ok (c', finished)) : c.Received cfg f c' finished := by
  rw [handleHeaders] at h
  split at h
  · cases h
  · next hid =>
    split at h
    · -- The stream is refused.
      cases h
      exact .quiet c.streams c.encoder _ hkind (.inl rfl) rfl fun _ => rfl
    · next hroom =>
      have hroom : c.streams.length < maxConcurrentStreams ∨ f.header.kind = .continuation := by
        by_cases hheaders : f.header.kind = .headers
        · exact .inl (Nat.lt_of_not_le fun hfull => hroom ⟨hheaders, hfull⟩)
        · exact .inr (hblock hheaders)
      cases hstrip : stripPadding f.payload f.header.flags (f.header.kind = .headers) with
      | error e =>
        rw [hstrip] at h
        cases h
      | ok fragment =>
        rw [hstrip] at h
        let opened := (Assoc.get c.streams f.header.streamId).getD .default
        let grown := { opened with headerFragment := opened.headerFragment ++ fragment }
        change ((if f.header.has H2.flag.endHeaders then readHeaders s c.decoder grown
          else .ok (grown, c.decoder) : Except H2Error (Stream × δ)) >>= _) = _ at h
        split at h
        · cases hread : readHeaders s c.decoder grown with
          | error e =>
            rw [hread] at h
            cases h
          | ok x =>
            rw [hread] at h
            cases h
            refine .block x.1 x.2 _ hkind hid hroom fun max parts hholds => ?_
            exact holds_readHeaders hread ⟨hholds.body, hholds.tooLarge⟩
        · cases h
          refine .block grown c.decoder _ hkind hid hroom fun max parts hholds => ?_
          exact ⟨hholds.body, hholds.tooLarge⟩

theorem received_of_handleData {f : Frame} {c' : Connection δ ε} {finished : Bool}
    (hkind : f.header.kind = .data) (h : c.handleData cfg f = .ok (c', finished)) :
    c.Received cfg f c' finished := by
  rw [handleData] at h
  cases hstrip : stripPadding f.payload f.header.flags false with
  | error e =>
    rw [hstrip] at h
    cases h
  | ok part =>
    rw [hstrip] at h
    have hstreams : (c.useCredit f.header.length).streams = c.streams := by
      obtain ⟨sent, used, heq, -⟩ := c.useCredit_cases f.header.length
      rw [heq]
    replace h := Except.ok.inj h
    cases hget : Assoc.get c.streams f.header.streamId with
    | none =>
      have hnone : Assoc.get (c.useCredit f.header.length).streams f.header.streamId = none := by
        rw [hstreams, hget]
      rw [hnone] at h
      cases h
      exact .late part hkind hstrip hget _
    | some stream =>
      have hsome : Assoc.get (c.useCredit f.header.length).streams f.header.streamId
          = some stream := by
        rw [hstreams, hget]
      rw [hsome, hstreams] at h
      have hpart := @Received.part δ ε cfg c f part stream hkind hstrip hget
        (f.header.has H2.flag.endStream)
      by_cases hlength : 0 < f.header.length
      · rw [if_pos hlength] at hpart
        simp only [hlength, if_true] at h
        cases h
        exact hpart
      · rw [if_neg hlength, List.append_nil] at hpart
        simp only [hlength, if_false] at h
        cases h
        exact hpart

theorem received_of_receive {f : Frame} {c' : Connection δ ε} {finished : Bool}
    (h : c.receive cfg s f = .ok (c', finished)) : c.Received cfg f c' finished := by
  have hother : ∀ kind, f.header.kind = kind → kind ≠ .data → f.header.kind ≠ .data := by
    rintro kind rfl hkind
    exact hkind
  rw [receive] at h
  cases hkind : f.header.kind with
  | data =>
    rw [hkind] at h
    exact c.received_of_handleData cfg hkind h
  | headers =>
    rw [hkind] at h
    exact c.received_of_handleHeaders cfg s (hother _ hkind nofun) (fun hne => absurd hkind hne) h
  | continuation =>
    rw [hkind] at h
    exact c.received_of_handleHeaders cfg s (hother _ hkind nofun) (fun _ => hkind) h
  | priority =>
    rw [hkind] at h
    cases h
    exact .same cfg c (hother _ hkind nofun)
  | rstStream =>
    rw [hkind] at h
    cases h
    have hreset : c.Received cfg f { c with
        streams := Assoc.erase c.streams f.header.streamId
        encoder := c.encoder
        out := c.out ++ [] } false :=
      .quiet _ c.encoder [] (hother _ hkind nofun) (.inr rfl) rfl fun _ => rfl
    rwa [List.append_nil] at hreset
  | settings =>
    rw [hkind] at h
    cases hsettings : c.handleSettings s f with
    | error e =>
      rw [hsettings] at h
      cases h
    | ok after =>
      rw [hsettings] at h
      cases h
      rw [handleSettings] at hsettings
      split at hsettings
      · cases hsettings
        exact .same cfg c (hother _ hkind nofun)
      · cases hparse : H2.parseSettings f.payload with
        | error e =>
          rw [hparse] at hsettings
          cases hsettings
        | ok settings =>
          rw [hparse] at hsettings
          cases hsettings
          exact .quiet c.streams _ _ (hother _ hkind nofun) (.inl rfl) rfl fun _ => rfl
  | pushPromise =>
    rw [hkind] at h
    cases h
  | ping =>
    rw [hkind] at h
    by_cases hack : f.header.has H2.flag.ack = true
    · simp only [hack, if_true] at h
      cases h
      exact .same cfg c (hother _ hkind nofun)
    · simp only [hack] at h
      cases h
      exact .quiet c.streams c.encoder _ (hother _ hkind nofun) (.inl rfl) rfl fun _ => rfl
  | goaway =>
    rw [hkind] at h
    cases h
  | windowUpdate =>
    rw [hkind] at h
    cases hupdate : H2.parseWindowUpdate f.payload with
    | error e =>
      rw [hupdate] at h
      cases h
    | ok n =>
      rw [hupdate] at h
      cases h
      exact .same cfg c (hother _ hkind nofun)
  | other byte =>
    rw [hkind] at h
    cases h
    exact .same cfg c (hother _ hkind nofun)

end Connection

/-! ## What came on a connection -/

/-- A request that is complete: its stream, and the parts of its body. -/
structure Request where
  streamId : ℕ
  stream : Stream
  parts : List Bytes

/-- A connection with what came on it. -/
structure Session (δ ε : Type) where
  connection : Connection δ ε
  /-- Every frame, and whether its stream was open. -/
  received : List (Frame × Bool)
  /-- The parts of the body of each open stream. -/
  mail : ℕ → List Bytes
  requests : List Request
  log : List (Counter × ℕ)

/-- What the peer sent against its window of the connection. -/
def dataLength (received : List (Frame × Bool)) : ℕ :=
  (received.map fun a => if a.1.header.kind = .data then a.1.header.length else 0).sum

/-- What it sent against the window of a stream while the stream was open. -/
def streamLength (streamId : ℕ) (received : List (Frame × Bool)) : ℕ :=
  (received.map fun a =>
    if a.1.header.kind = .data ∧ a.1.header.streamId = streamId ∧ a.2 then a.1.header.length
    else 0).sum

/-- The continuations of header blocks that were never begun. -/
def strays (received : List (Frame × Bool)) : ℕ :=
  received.countP fun a => a.1.header.kind = .continuation && !a.2

theorem dataLength_concat (received : List (Frame × Bool)) (f : Frame) (isOpen : Bool) :
    dataLength (received ++ [(f, isOpen)])
      = dataLength received + if f.header.kind = .data then f.header.length else 0 := by
  rw [dataLength, List.map_append, List.sum_append, List.map_cons, List.map_nil, List.sum_singleton]
  rfl

theorem streamLength_concat (streamId : ℕ) (received : List (Frame × Bool)) (f : Frame)
    (isOpen : Bool) :
    streamLength streamId (received ++ [(f, isOpen)])
      = streamLength streamId received
        + if f.header.kind = .data ∧ f.header.streamId = streamId ∧ isOpen then f.header.length
          else 0 := by
  rw [streamLength, List.map_append, List.sum_append, List.map_cons, List.map_nil,
    List.sum_singleton]
  rfl

theorem strays_concat (received : List (Frame × Bool)) (a : Frame × Bool) :
    strays (received ++ [a]) = strays received
      + if a.1.header.kind = .continuation && !a.2 then 1 else 0 := by
  rw [strays, List.countP_append, List.countP_cons, List.countP_nil, Nat.zero_add]
  rfl

namespace Session

variable {δ ε : Type} (cfg : GrpcConfig) (s : Services δ ε)

def start (decoder : δ) (encoder : ε) : Session δ ε :=
  ⟨.start decoder encoder, [], fun _ => [], [], []⟩

/-- The parts of the streams that are open in `c`, with the one of the frame. -/
def deliver (w : Session δ ε) (c : Connection δ ε) (f : Frame) (i : ℕ) : List Bytes :=
  if (Assoc.get c.streams i).isSome then
    w.mail i ++ if f.header.kind = .data ∧ f.header.streamId = i then
      (stripPadding f.payload f.header.flags false).toOption.toList else []
  else []

/-- A frame; there is nothing after it if it ends the connection. -/
def step (w : Session δ ε) (a : Frame × (List LogRecord → Accepted)) : Option (Session δ ε) :=
  match w.connection.receive cfg s a.1, w.connection.handleFrame cfg s a.2 a.1 with
  | .ok (c, _), ⟨log, some (.ok after)⟩ =>
    some {
      connection := after
      received := w.received ++
        [(a.1, (Assoc.get w.connection.streams a.1.header.streamId).isSome)]
      mail := fun i => if (Assoc.get after.streams i).isSome then w.deliver c a.1 i else []
      requests := w.requests ++ (w.connection.completed cfg s a.1).toList.map fun stream =>
        ⟨a.1.header.streamId, stream, w.deliver c a.1 a.1.header.streamId⟩
      log := w.log ++ log }
  | _, _ => none

/-- What holds of every connection, as long as it is not ended. -/
structure Exact (w : Session δ ε) : Prop where
  unique : (w.connection.streams.map Prod.fst).Nodup
  zero : Assoc.get w.connection.streams 0 = none
  credit : granted 0 w.connection.out + w.connection.connectionCreditUsed
    = window + dataLength w.received
  low : w.connection.connectionCreditUsed < window / 2
  stream : ∀ i, i ≠ 0 → granted i w.connection.out = streamLength i w.received
  held : ∀ i stream, Assoc.get w.connection.streams i = some stream →
    stream.Holds cfg.maxMessageBytes (w.mail i)
  empty : ∀ i, Assoc.get w.connection.streams i = none → w.mail i = []
  whole : ∀ q ∈ w.requests, q.stream.Holds cfg.maxMessageBytes q.parts
  answered : w.connection.out.filterMap Sent.ended = w.requests.map Request.streamId
  counted : amount .requests w.log = w.requests.length
  few : w.connection.streams.length ≤ maxConcurrentStreams + strays w.received

variable {cfg s}

theorem deliver_of_ne {w : Session δ ε} {f : Frame} (hkind : f.header.kind ≠ .data)
    (c : Connection δ ε) (i : ℕ) :
    w.deliver c f i = if (Assoc.get c.streams i).isSome then w.mail i else [] := by
  rw [deliver]
  split
  · rw [if_neg fun h => hkind h.1, List.append_nil]
  · rfl

theorem Exact.start (cfg : GrpcConfig) (decoder : δ) (encoder : ε) :
    (start decoder encoder).Exact cfg where
  unique := List.nodup_nil
  zero := rfl
  credit := rfl
  low := (by decide : 0 < window / 2)
  stream := fun i hi => by
    show (0 + ((if 0 = i then window else 0) + 0)) = 0
    rw [if_neg (Ne.symm hi)]
  held := fun _ _ h => nomatch h
  empty := fun _ _ => rfl
  whole := fun _ h => nomatch h
  answered := rfl
  counted := rfl
  few := Nat.zero_le _

variable {w : Session δ ε}

/-- What was received, with a frame more. -/
def arrived (w : Session δ ε) (f : Frame) : List (Frame × Bool) :=
  w.received ++ [(f, (Assoc.get w.connection.streams f.header.streamId).isSome)]

/-- The session after a frame, before the end of its stream. -/
def after (w : Session δ ε) (c : Connection δ ε) (f : Frame) : Session δ ε :=
  { w with connection := c, received := w.arrived f, mail := w.deliver c f }

theorem lengths_of_ne {f : Frame} (hkind : f.header.kind ≠ .data) :
    dataLength (w.arrived f) = dataLength w.received ∧
      ∀ i, streamLength i (w.arrived f) = streamLength i w.received := by
  refine ⟨?_, fun i => ?_⟩
  · rw [arrived, dataLength_concat, if_neg hkind, Nat.add_zero]
  · rw [arrived, streamLength_concat, if_neg fun h => hkind h.1, Nat.add_zero]

theorem strays_le (w : Session δ ε) (f : Frame) : strays w.received ≤ strays (w.arrived f) := by
  rw [arrived, strays_concat]
  exact Nat.le_add_right _ _

theorem Exact.quiet (h : w.Exact cfg) {f : Frame} {streams : List (ℕ × Stream)} (encoder : ε)
    {sent : List Sent} (hkind : f.header.kind ≠ .data)
    (hstreams : streams = w.connection.streams ∨
      streams = Assoc.erase w.connection.streams f.header.streamId)
    (hends : sent.filterMap Sent.ended = []) (hgrants : ∀ i, granted i sent = 0) :
    Exact cfg (w.after { w.connection with
      streams := streams, encoder := encoder, out := w.connection.out ++ sent } f) := by
  obtain ⟨hdata, hlengths⟩ := lengths_of_ne (w := w) hkind
  have hget : ∀ i stream, Assoc.get streams i = some stream →
      Assoc.get w.connection.streams i = some stream := by
    intro i stream hsome
    rcases hstreams with rfl | rfl
    · exact hsome
    · rw [Assoc.get_erase] at hsome
      split at hsome
      · cases hsome
      · exact hsome
  have hshorter : streams.length ≤ w.connection.streams.length := by
    rcases hstreams with rfl | rfl
    · exact le_rfl
    · exact List.length_filter_le _ _
  refine { h with
    unique := ?_
    zero := ?_
    credit := ?_
    stream := ?_
    held := ?_
    empty := ?_
    answered := ?_
    few := hshorter.trans (h.few.trans (Nat.add_le_add_left (w.strays_le f) _)) }
  · rcases hstreams with rfl | rfl
    · exact h.unique
    · exact Assoc.nodup_keys_erase h.unique _
  · cases hzero : Assoc.get streams 0 with
    | none => exact hzero ▸ rfl
    | some stream =>
      have hsome := hget 0 stream hzero
      rw [h.zero] at hsome
      cases hsome
  · show granted 0 (w.connection.out ++ sent) + _ = window + dataLength (w.arrived f)
    rw [granted_append, hgrants, Nat.add_zero, hdata]
    exact h.credit
  · intro i hi
    show granted i (w.connection.out ++ sent) = streamLength i (w.arrived f)
    rw [granted_append, hgrants, Nat.add_zero, hlengths]
    exact h.stream i hi
  · intro i stream hsome
    have hsome : Assoc.get streams i = some stream := hsome
    show stream.Holds _ (w.deliver _ f i)
    rw [deliver_of_ne hkind]
    simp only [hsome, Option.isSome_some, if_true]
    exact h.held i stream (hget i stream hsome)
  · intro i hnone
    have hnone : Assoc.get streams i = none := hnone
    show w.deliver _ f i = []
    rw [deliver_of_ne hkind]
    simp only [hnone, Option.isSome_none]
    rfl
  · show (w.connection.out ++ sent).filterMap Sent.ended = _
    rw [List.filterMap_append, hends, List.append_nil]
    exact h.answered

theorem Exact.block (h : w.Exact cfg) {f : Frame} {stream : Stream} (decoder : δ)
    (hkind : f.header.kind ≠ .data) (hid : f.header.streamId ≠ 0)
    (hroom : w.connection.streams.length < maxConcurrentStreams ∨ f.header.kind = .continuation)
    (hstream : ∀ max parts,
      ((Assoc.get w.connection.streams f.header.streamId).getD .default).Holds max parts →
        stream.Holds max parts) :
    Exact cfg (w.after { w.connection with
      streams := Assoc.insert w.connection.streams f.header.streamId stream
      decoder := decoder } f) := by
  obtain ⟨hdata, hlengths⟩ := lengths_of_ne (w := w) hkind
  refine { h with
    unique := Assoc.nodup_keys_insert h.unique _ _
    zero := ?_
    credit := ?_
    stream := ?_
    held := ?_
    empty := ?_
    few := ?_ }
  · show Assoc.get (Assoc.insert _ _ _) 0 = none
    rw [Assoc.get_insert, if_neg (Ne.symm hid)]
    exact h.zero
  · show _ = window + dataLength (w.arrived f)
    rw [hdata]
    exact h.credit
  · intro i hi
    show _ = streamLength i (w.arrived f)
    rw [hlengths]
    exact h.stream i hi
  · intro i held hsome
    have hsome : Assoc.get (Assoc.insert w.connection.streams f.header.streamId stream) i
        = some held := hsome
    show held.Holds _ (w.deliver _ f i)
    rw [deliver_of_ne hkind]
    simp only [hsome, Option.isSome_some, if_true]
    rw [Assoc.get_insert] at hsome
    split at hsome
    · next hi =>
      obtain rfl := Option.some.inj hsome
      rw [hi]
      refine hstream _ _ ?_
      cases hopen : Assoc.get w.connection.streams f.header.streamId with
      | none =>
        rw [h.empty _ hopen]
        exact Stream.holds_default _
      | some opened => exact h.held _ opened hopen
    · exact h.held i held hsome
  · intro i hnone
    have hnone : Assoc.get (Assoc.insert w.connection.streams f.header.streamId stream) i
        = none := hnone
    show w.deliver _ f i = []
    rw [deliver_of_ne hkind]
    simp only [hnone, Option.isSome_none]
    rfl
  · show (Assoc.insert w.connection.streams f.header.streamId stream).length
      ≤ maxConcurrentStreams + strays (w.arrived f)
    have hstrays := w.strays_le f
    cases hopen : Assoc.get w.connection.streams f.header.streamId with
    | some opened =>
      have hlength := Capped.length_insert_le_of_isSome (by rw [hopen]; rfl) stream
      exact hlength.trans (h.few.trans (Nat.add_le_add_left hstrays _))
    | none =>
      have hlength := Assoc.length_insert_le w.connection.streams f.header.streamId stream
      have hfew := h.few
      rcases hroom with hroom | hcontinuation
      · omega
      · have hstray : strays (w.arrived f) = strays w.received + 1 := by
          rw [arrived, hopen, strays_concat, if_pos]
          simp [hcontinuation]
        omega

theorem Exact.late (h : w.Exact cfg) {f : Frame} (hkind : f.header.kind = .data)
    (hnone : Assoc.get w.connection.streams f.header.streamId = none) :
    Exact cfg (w.after (w.connection.useCredit f.header.length) f) := by
  obtain ⟨sent, used, heq, hends, hothers, hgiven, hlow⟩ :=
    w.connection.useCredit_cases f.header.length
  rw [heq]
  refine { h with
    credit := ?_
    low := hlow
    stream := ?_
    held := ?_
    empty := ?_
    answered := ?_
    few := h.few.trans (Nat.add_le_add_left (w.strays_le f) _) }
  · have hcredit := h.credit
    show granted 0 (w.connection.out ++ sent) + used = window + dataLength (w.arrived f)
    rw [granted_append, arrived, dataLength_concat, if_pos hkind]
    omega
  · intro i hi
    show granted i (w.connection.out ++ sent) = streamLength i (w.arrived f)
    rw [granted_append, hothers i hi, Nat.add_zero, arrived, streamLength_concat, hnone,
      if_neg fun h => Bool.false_ne_true h.2.2, Nat.add_zero]
    exact h.stream i hi
  · intro i stream hsome
    have hsome : Assoc.get w.connection.streams i = some stream := hsome
    have hother : ¬ (f.header.kind = .data ∧ f.header.streamId = i) := by
      rintro ⟨-, rfl⟩
      rw [hnone] at hsome
      cases hsome
    show stream.Holds _ (w.deliver _ f i)
    rw [deliver, if_neg hother, List.append_nil]
    simp only [hsome, Option.isSome_some, if_true]
    exact h.held i stream hsome
  · intro i hclosed
    have hclosed : Assoc.get w.connection.streams i = none := hclosed
    show w.deliver _ f i = []
    rw [deliver]
    simp only [hclosed, Option.isSome_none]
    rfl
  · show (w.connection.out ++ sent).filterMap Sent.ended = _
    rw [List.filterMap_append, hends, List.append_nil]
    exact h.answered

theorem Exact.part (h : w.Exact cfg) {f : Frame} {part : Bytes} {stream : Stream}
    (hkind : f.header.kind = .data)
    (hpart : stripPadding f.payload f.header.flags false = .ok part)
    (hsome : Assoc.get w.connection.streams f.header.streamId = some stream) :
    Exact cfg (w.after { w.connection.useCredit f.header.length with
      streams := Assoc.insert w.connection.streams f.header.streamId
        (stream.receive cfg.maxMessageBytes part)
      out := (w.connection.useCredit f.header.length).out ++
        if 0 < f.header.length then [.windowUpdate f.header.streamId f.header.length] else [] }
      f) := by
  obtain ⟨sent, used, heq, hends, hothers, hgiven, hlow⟩ :=
    w.connection.useCredit_cases f.header.length
  have hid : f.header.streamId ≠ 0 := by
    intro hid
    rw [hid, h.zero] at hsome
    cases hsome
  let updates : List Sent :=
    if 0 < f.header.length then [.windowUpdate f.header.streamId f.header.length] else []
  have hupdates : updates.filterMap Sent.ended = [] ∧
      ∀ i, granted i updates = if f.header.streamId = i then f.header.length else 0 := by
    by_cases hlength : 0 < f.header.length
    · have hone : updates = [.windowUpdate f.header.streamId f.header.length] := if_pos hlength
      rw [hone]
      exact ⟨rfl, fun i => Nat.add_zero _⟩
    · have hnone : updates = [] := if_neg hlength
      rw [hnone]
      refine ⟨rfl, fun i => ?_⟩
      rw [Nat.eq_zero_of_not_pos hlength, ite_self]
      rfl
  rw [heq]
  refine { h with
    unique := Assoc.nodup_keys_insert h.unique _ _
    zero := ?_
    credit := ?_
    low := hlow
    stream := ?_
    held := ?_
    empty := ?_
    answered := ?_
    few := ?_ }
  · show Assoc.get (Assoc.insert _ _ _) 0 = none
    rw [Assoc.get_insert, if_neg (Ne.symm hid)]
    exact h.zero
  · have hcredit := h.credit
    show granted 0 (w.connection.out ++ sent ++ updates) + used = window + dataLength (w.arrived f)
    rw [granted_append, granted_append, hupdates.2, if_neg hid, arrived, dataLength_concat,
      if_pos hkind]
    omega
  · intro i hi
    show granted i (w.connection.out ++ sent ++ updates) = streamLength i (w.arrived f)
    rw [granted_append, granted_append, hothers i hi, Nat.add_zero, hupdates.2,
      arrived, streamLength_concat, hsome, h.stream i hi]
    refine congrArg _ (if_congr ?_ rfl rfl)
    exact ⟨fun hi => ⟨hkind, hi, rfl⟩, fun h => h.2.1⟩
  · intro i held hheld
    have hheld : Assoc.get (Assoc.insert w.connection.streams f.header.streamId
        (stream.receive cfg.maxMessageBytes part)) i = some held := hheld
    show held.Holds _ (w.deliver _ f i)
    rw [deliver]
    simp only [hheld, Option.isSome_some, if_true]
    rw [Assoc.get_insert] at hheld
    split at hheld
    · next hi =>
      obtain rfl := Option.some.inj hheld
      rw [hi, if_pos ⟨hkind, rfl⟩, hpart]
      exact (h.held _ stream hsome).receive part
    · next hi =>
      rw [if_neg fun h => hi h.2.symm, List.append_nil]
      exact h.held i held hheld
  · intro i hclosed
    have hclosed : Assoc.get (Assoc.insert w.connection.streams f.header.streamId
        (stream.receive cfg.maxMessageBytes part)) i = none := hclosed
    show w.deliver _ f i = []
    rw [deliver]
    simp only [hclosed, Option.isSome_none]
    rfl
  · show (w.connection.out ++ sent ++ updates).filterMap Sent.ended = _
    rw [List.filterMap_append, List.filterMap_append, hends, hupdates.1, List.append_nil,
      List.append_nil]
    exact h.answered
  · have hlength := Capped.length_insert_le_of_isSome (by rw [hsome]; rfl)
      (stream.receive cfg.maxMessageBytes part)
    exact hlength.trans (h.few.trans (Nat.add_le_add_left (w.strays_le f) _))

theorem Exact.receive (h : w.Exact cfg) {f : Frame} {c : Connection δ ε} {finished : Bool}
    (hreceived : w.connection.Received cfg f c finished) : Exact cfg (w.after c f) := by
  cases hreceived with
  | quiet streams encoder sent hkind hstreams hends hgrants =>
    exact h.quiet encoder hkind hstreams hends hgrants
  | block stream decoder finished hkind hid hroom hstream =>
    exact h.block decoder hkind hid hroom hstream
  | late part hkind hpart hnone finished => exact h.late hkind hnone
  | part part stream hkind hpart hsome finished => exact h.part hkind hpart hsome

theorem Exact.finish (h : w.Exact cfg) {id : ℕ} {stream : Stream}
    (hget : Assoc.get w.connection.streams id = some stream) {c : Connection δ ε}
    {sent : List Sent} {log : List (Counter × ℕ)}
    (hwrote : { w.connection with
      streams := Assoc.erase w.connection.streams id }.Wrote c sent)
    (hreply : Reply id sent) (honce : ledger.Once log) :
    Exact cfg {
      connection := c
      received := w.received
      mail := fun i => if (Assoc.get c.streams i).isSome then w.mail i else []
      requests := w.requests ++ [⟨id, stream, w.mail id⟩]
      log := w.log ++ log } := by
  obtain ⟨encoder, rfl⟩ := hwrote
  have hold : ∀ i held, Assoc.get (Assoc.erase w.connection.streams id) i = some held →
      Assoc.get w.connection.streams i = some held := by
    intro i held hheld
    rw [Assoc.get_erase] at hheld
    split at hheld
    · cases hheld
    · exact hheld
  refine {
    unique := Assoc.nodup_keys_erase h.unique id
    zero := ?_
    credit := ?_
    low := h.low
    stream := ?_
    held := ?_
    empty := ?_
    whole := ?_
    answered := ?_
    counted := ?_
    few := (List.length_filter_le _ _).trans h.few }
  · show Assoc.get (Assoc.erase _ _) 0 = none
    rw [Assoc.get_erase, h.zero, ite_self]
  · show granted 0 (w.connection.out ++ sent) + _ = _
    rw [granted_append, hreply.grants, Nat.add_zero]
    exact h.credit
  · intro i hi
    show granted i (w.connection.out ++ sent) = _
    rw [granted_append, hreply.grants, Nat.add_zero]
    exact h.stream i hi
  · intro i held hheld
    have hheld : Assoc.get (Assoc.erase w.connection.streams id) i = some held := hheld
    simp only [hheld, Option.isSome_some, if_true]
    exact h.held i held (hold i held hheld)
  · intro i hnone
    have hnone : Assoc.get (Assoc.erase w.connection.streams id) i = none := hnone
    simp only [hnone, Option.isSome_none]
    rfl
  · intro q hq
    rcases List.mem_append.1 hq with hq | hq
    · exact h.whole q hq
    · rw [List.mem_singleton.1 hq]
      exact h.held id stream hget
  · show (w.connection.out ++ sent).filterMap Sent.ended = _
    rw [List.filterMap_append, hreply.ends, h.answered, List.map_append]
    rfl
  · show amount .requests (w.log ++ log) = _
    rw [Counting.amount_append, h.counted, List.length_append]
    exact congrArg (_ + ·) honce.1

theorem deliver_deliver (w : Session δ ε) (c : Connection δ ε) (f : Frame) :
    (fun i => if (Assoc.get c.streams i).isSome then w.deliver c f i else []) = w.deliver c f := by
  funext i
  rw [deliver]
  split
  · rfl
  · rfl

theorem Exact.step (h : w.Exact cfg) {a : Frame × (List LogRecord → Accepted)}
    {w' : Session δ ε} (hstep : w.step cfg s a = some w') : w'.Exact cfg := by
  rw [Session.step] at hstep
  split at hstep
  · next c finished log after hreceive hhandle =>
    obtain rfl := Option.some.inj hstep
    have hmid := h.receive (w.connection.received_of_receive cfg s hreceive)
    rw [Connection.handleFrame, hreceive] at hhandle
    have hquiet : Exact cfg { w with
        connection := c
        received := w.received ++
          [(a.1, (Assoc.get w.connection.streams a.1.header.streamId).isSome)]
        mail := fun i => if (Assoc.get c.streams i).isSome then w.deliver c a.1 i else []
        requests := w.requests ++ []
        log := w.log ++ [] } := by
      rw [deliver_deliver, List.append_nil, List.append_nil]
      exact hmid
    cases finished with
    | false =>
      cases hhandle
      rw [Connection.completed, hreceive]
      exact hquiet
    | true =>
      have hhandle : c.finishStream cfg s a.2 a.1.header.streamId = ⟨log, some (.ok after)⟩ :=
        hhandle
      rw [Connection.finishStream] at hhandle
      rw [Connection.completed, hreceive]
      simp only
      cases hget : Assoc.get c.streams a.1.header.streamId with
      | none =>
        rw [hget] at hhandle
        cases hhandle
        exact hquiet
      | some stream =>
        rw [hget] at hhandle
        cases hdone : stream.headersDone with
        | false =>
          simp only [hdone] at hhandle
          cases hhandle
        | true =>
          simp only [hdone, if_true] at hhandle
          obtain ⟨log', c', sent, heq, hwrote, hreply⟩ := Connection.answer_reply cfg s a.2
            { c with streams := Assoc.erase c.streams a.1.header.streamId } a.1.header.streamId
            stream
          obtain ⟨log'', c'', hanswer, honce⟩ := Connection.answer_once cfg s a.2
            { c with streams := Assoc.erase c.streams a.1.header.streamId } a.1.header.streamId
            stream
          rw [heq] at hanswer
          cases hanswer
          rw [heq, Counting.map_eq] at hhandle
          cases hhandle
          simp only [Option.filter_some, hdone, if_true]
          exact hmid.finish hget hwrote hreply honce
  · cases hstep

/-- Frames one after another, as long as none of them ends the connection. -/
def next (cfg : GrpcConfig) (s : Services δ ε) (w : Option (Session δ ε))
    (a : Frame × (List LogRecord → Accepted)) : Option (Session δ ε) :=
  w.bind fun w => w.step cfg s a

theorem exact_run (cfg : GrpcConfig) (s : Services δ ε) {decoder : δ} {encoder : ε}
    {frames : List (Frame × (List LogRecord → Accepted))}
    (h : Runs.run (next cfg s) (some (.start decoder encoder)) frames = some w) : w.Exact cfg := by
  have hkeep : ∀ (o : Option (Session δ ε)) (a : Frame × (List LogRecord → Accepted)),
      (∀ w, o = some w → w.Exact cfg) → ∀ w, next cfg s o a = some w → w.Exact cfg := by
    intro o a ho w' hw'
    obtain ⟨w, hw, hstep⟩ := Option.bind_eq_some_iff.1 hw'
    exact (ho w hw).step hstep
  have hstart : ∀ w, some (start decoder encoder) = some w → w.Exact cfg := by
    intro w hw
    cases hw
    exact .start cfg decoder encoder
  exact @Runs.run_invariant _ _ (next cfg s) (fun o => ∀ w, o = some w → w.Exact cfg) hkeep _
    hstart frames w h

section

variable {decoder : δ} {encoder : ε} {frames : List (Frame × (List LogRecord → Accepted))}

/-- No credit is lost or given twice: what was given back on the connection and what is still to be
given back is what was sent, and there is always more than half a window for the peer. On a stream
it is what came while the stream was open. -/
theorem credit_given_back
    (h : Runs.run (next cfg s) (some (start decoder encoder)) frames = some w) :
    granted 0 w.connection.out + w.connection.connectionCreditUsed
        = window + dataLength w.received ∧
      dataLength w.received + window / 2 < granted 0 w.connection.out ∧
      ∀ i, i ≠ 0 → granted i w.connection.out = streamLength i w.received := by
  have hexact := exact_run cfg s h
  have hcredit := hexact.credit
  have hlow := hexact.low
  refine ⟨hcredit, ?_, hexact.stream⟩
  have hhalf : window / 2 + window / 2 = window := by decide
  omega

/-- However the frames of the streams are mixed and a body is cut, every body is its parts, unless
it is larger than a message may be. -/
theorem bodies_put_together
    (h : Runs.run (next cfg s) (some (start decoder encoder)) frames = some w) :
    (∀ i stream, Assoc.get w.connection.streams i = some stream →
      stream.Holds cfg.maxMessageBytes (w.mail i)) ∧
      ∀ q ∈ w.requests, q.stream.Holds cfg.maxMessageBytes q.parts :=
  ⟨(exact_run cfg s h).held, (exact_run cfg s h).whole⟩

/-- The streams are ended in the order in which their requests are complete, each once, and each
request is counted once. -/
theorem requests_answered
    (h : Runs.run (next cfg s) (some (start decoder encoder)) frames = some w) :
    w.connection.out.filterMap Sent.ended = w.requests.map Request.streamId ∧
      amount .requests w.log = w.requests.length :=
  ⟨(exact_run cfg s h).answered, (exact_run cfg s h).counted⟩

/-- Only a continuation without a beginning opens a stream too many, and no stream keeps more than a
message. -/
theorem streams_bounded
    (h : Runs.run (next cfg s) (some (start decoder encoder)) frames = some w) :
    (w.connection.streams.map Prod.fst).Nodup ∧
      w.connection.streams.length ≤ maxConcurrentStreams + strays w.received ∧
      ∀ e ∈ w.connection.streams, e.2.body.length ≤ cfg.maxMessageBytes := by
  have hexact := exact_run cfg s h
  refine ⟨hexact.unique, hexact.few, fun e he => ?_⟩
  have hget : Assoc.get w.connection.streams e.1 = some e.2 :=
    (Assoc.get_eq_some_iff hexact.unique).2 he
  exact (hexact.held e.1 e.2 hget).length_le

end

/-! ## A request in two parts -/

/-- A peer whose header blocks are all for the export of logs. -/
def exporter : Services Unit Unit where
  decode _ _ := .ok ([(Utf8.encode ":path".toList, Utf8.encode exportPath),
    (Utf8.encode "content-type".toList, Utf8.encode "application/grpc".toList)], ())
  setMaxTableSize _ _ := ()
  encode _ _ := ([], ())
  gunzip _ payload := .ok payload
  decodeRequest _ := .ok ⟨[], 0⟩

/-- An empty message on the first stream, and a stream that is not finished. -/
def twoStreams : List (Frame × (List LogRecord → Accepted)) :=
  [(⟨⟨1, .headers, 0x4, 1⟩, [0x82], rfl, by decide⟩, fun _ => .all),
    (⟨⟨1, .headers, 0x4, 3⟩, [0x82], rfl, by decide⟩, fun _ => .all),
    (⟨⟨3, .data, 0x0, 1⟩, [0, 0, 0], rfl, by decide⟩, fun _ => .all),
    (⟨⟨2, .data, 0x0, 3⟩, [0, 0], rfl, by decide⟩, fun _ => .all),
    (⟨⟨2, .data, 0x1, 1⟩, [0, 0], rfl, by decide⟩, fun _ => .all)]

theorem isSome_twoStreams :
    (Runs.run (next ⟨4, 4⟩ exporter) (some (start () ())) twoStreams).isSome = true := by
  decide +kernel

theorem credit_given_back_twoStreams :
    ∃ w, Runs.run (next ⟨4, 4⟩ exporter) (some (start () ())) twoStreams = some w ∧
      granted 0 w.connection.out + w.connection.connectionCreditUsed
        = window + dataLength w.received ∧
      dataLength w.received + window / 2 < granted 0 w.connection.out ∧
      ∀ i, i ≠ 0 → granted i w.connection.out = streamLength i w.received := by
  obtain ⟨w, hw⟩ := Option.isSome_iff_exists.1 isSome_twoStreams
  exact ⟨w, hw, credit_given_back hw⟩

theorem bodies_put_together_twoStreams :
    ∃ w, Runs.run (next ⟨4, 4⟩ exporter) (some (start () ())) twoStreams = some w ∧
      (∀ i stream, Assoc.get w.connection.streams i = some stream →
        stream.Holds 4 (w.mail i)) ∧
      ∀ q ∈ w.requests, q.stream.Holds 4 q.parts := by
  obtain ⟨w, hw⟩ := Option.isSome_iff_exists.1 isSome_twoStreams
  exact ⟨w, hw, bodies_put_together hw⟩

theorem requests_answered_twoStreams :
    ∃ w, Runs.run (next ⟨4, 4⟩ exporter) (some (start () ())) twoStreams = some w ∧
      w.connection.out.filterMap Sent.ended = w.requests.map Request.streamId ∧
      amount .requests w.log = w.requests.length := by
  obtain ⟨w, hw⟩ := Option.isSome_iff_exists.1 isSome_twoStreams
  exact ⟨w, hw, requests_answered hw⟩

theorem streams_bounded_twoStreams :
    ∃ w, Runs.run (next ⟨4, 4⟩ exporter) (some (start () ())) twoStreams = some w ∧
      (w.connection.streams.map Prod.fst).Nodup ∧
      w.connection.streams.length ≤ maxConcurrentStreams + strays w.received ∧
      ∀ e ∈ w.connection.streams, e.2.body.length ≤ 4 := by
  obtain ⟨w, hw⟩ := Option.isSome_iff_exists.1 isSome_twoStreams
  exact ⟨w, hw, streams_bounded hw⟩

end Session

end LogLess.Grpc
