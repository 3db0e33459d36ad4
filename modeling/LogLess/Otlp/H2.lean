import LogLess.Lib.Frames
import LogLess.Model

/-!
# The frames of HTTP/2

The slice that calls of one request need: frames, their padding, and what the receiver reads of
settings and window updates.
-/

namespace LogLess.H2

open Frames (Bytes)

def defaultMaxFrameSize : ℕ := 16384

inductive FrameKind where
  | data
  | headers
  | priority
  | rstStream
  | settings
  | pushPromise
  | ping
  | goaway
  | windowUpdate
  | continuation
  | other (byte : UInt8)
deriving DecidableEq

namespace flag

def endStream : UInt8 := 0x1
/-- The bit of `endStream`, on settings and pings. -/
def ack : UInt8 := 0x1
def endHeaders : UInt8 := 0x4
def padded : UInt8 := 0x8
def priority : UInt8 := 0x20

end flag

namespace setting

def headerTableSize : ℕ := 0x1
def enablePush : ℕ := 0x2
def maxConcurrentStreams : ℕ := 0x3
def initialWindowSize : ℕ := 0x4
def maxFrameSize : ℕ := 0x5

end setting

namespace errorCode

def noError : ℕ := 0x0
def protocolError : ℕ := 0x1
def frameSizeError : ℕ := 0x6
def refusedStream : ℕ := 0x7
def compressionError : ℕ := 0x9

end errorCode

/-- What the peer did that ends the connection. -/
structure H2Error where
  code : ℕ
  reason : Text
deriving DecidableEq

structure FrameHeader where
  length : ℕ
  kind : FrameKind
  flags : UInt8
  streamId : ℕ
deriving DecidableEq

def FrameHeader.has (h : FrameHeader) (flag : UInt8) : Bool := h.flags &&& flag ≠ 0

/-- A frame that is small enough to be read, with all of its payload. -/
structure Frame where
  header : FrameHeader
  payload : Bytes
  whole : payload.length = header.length
  within : header.length ≤ defaultMaxFrameSize
deriving DecidableEq

/-- The number in big-endian bytes. -/
def ofBe (bytes : Bytes) : ℕ := bytes.foldl (fun n b => n * 256 + b.toNat) 0

/-- A frame without its padding and its priority block. -/
def stripPadding (payload : Bytes) (flags : UInt8) (hasPriorityField : Bool) :
    Except H2Error Bytes :=
  let padded : Except H2Error (ℕ × Bytes) :=
    if flags &&& flag.padded ≠ 0 then
      match payload with
      | [] => .error ⟨errorCode.protocolError, "padded frame is empty".toList⟩
      | first :: rest => .ok (first.toNat, rest)
    else .ok (0, payload)
  match padded with
  | .error e => .error e
  | .ok (padLen, body) =>
    if hasPriorityField = true ∧ flags &&& flag.priority ≠ 0 ∧ body.length < 5 then
      .error ⟨errorCode.protocolError, "priority block truncated".toList⟩
    else
      let body := if hasPriorityField = true ∧ flags &&& flag.priority ≠ 0 then body.drop 5 else body
      if body.length < padLen then
        .error ⟨errorCode.protocolError, "padding longer than the frame".toList⟩
      else .ok (body.take (body.length - padLen))

/-- The settings of a payload, six bytes each. -/
def settingsOf : Bytes → List (ℕ × ℕ)
  | a :: b :: c :: d :: e :: f :: rest => (ofBe [a, b], ofBe [c, d, e, f]) :: settingsOf rest
  | _ => []

def parseSettings (payload : Bytes) : Except H2Error (List (ℕ × ℕ)) :=
  if payload.length % 6 ≠ 0 then
    .error ⟨errorCode.frameSizeError, "SETTINGS payload is not a multiple of 6".toList⟩
  else .ok (settingsOf payload)

def parseWindowUpdate (payload : Bytes) : Except H2Error ℕ :=
  if payload.length ≠ 4 then
    .error ⟨errorCode.frameSizeError, "WINDOW_UPDATE payload must be 4 bytes".toList⟩
  else .ok (ofBe payload % 2 ^ 31)

end LogLess.H2
