import LogLess.Lib.Decimal
import LogLess.Lib.Frames
import LogLess.Lib.Lists
import LogLess.Lib.Text

/-!
# The outbound spool

Records accepted for delivery wait in numbered segment files until a durable cursor has
passed them. `push` appends a frame to the last segment, `peek` reads from the cursor on,
`commit` moves the cursor and removes the segments behind it, `open` finds all of this
again after a restart.
-/

namespace LogLess.Outbound

open Frames

def magic : Bytes := [76, 71, 76, 83, 83, 80, 76, 1]

def headerBytes : ℕ := 8

def frameOverhead : ℕ := 8

inductive SpoolError where
  | io
  | badMagic
  | tooLarge (len limit : ℕ)
deriving DecidableEq

structure Cursor where
  segment : ℕ
  offset : ℕ
deriving DecidableEq

structure SpoolConfig where
  segmentBytes : ℕ
  maxTotalBytes : ℕ
  maxRecordBytes : ℕ

def SpoolConfig.default : SpoolConfig where
  segmentBytes := 16 * 1024 * 1024
  maxTotalBytes := 512 * 1024 * 1024
  maxRecordBytes := 32 * 1024 * 1024

/-! ## The directory -/

/-- A segment and how many of its bytes a crash leaves. Its name is its id. -/
structure SegmentFile where
  id : ℕ
  bytes : Bytes
  synced : ℕ

structure Dir where
  files : List SegmentFile
  /-- The text of the cursor file. -/
  cursor : Option (List Char)

def Dir.listSegments (dir : Dir) : List ℕ := Lists.sortByKey id (dir.files.map SegmentFile.id)

def Dir.file (dir : Dir) (segment : ℕ) : Option SegmentFile :=
  dir.files.find? fun f => f.id == segment

/-- One file replaced by what `f` makes of it. -/
def Dir.update (dir : Dir) (segment : ℕ) (f : SegmentFile → SegmentFile) : Dir :=
  { dir with files := dir.files.map fun x => if x.id = segment then f x else x }

def readCursor (dir : Dir) : Cursor :=
  match dir.cursor with
  | none => ⟨0, 0⟩
  | some text =>
    let parts := Text.splitAt ':' (Text.trim text)
    { segment := ((parts[0]?).bind Decimal.parse).getD 0
      offset := ((parts[1]?).bind Decimal.parse).getD headerBytes }

def writeCursor (dir : Dir) (cursor : Cursor) : Dir :=
  { dir with cursor := some (Decimal.ofNat cursor.segment ++ ':' :: Decimal.ofNat cursor.offset) }

/-- `open_segment_for_append`: the directory and the length of the segment. -/
def openSegmentForAppend (dir : Dir) (segment : ℕ) : Except SpoolError (Dir × ℕ) :=
  match dir.file segment with
  | none => .ok ({ dir with files := dir.files ++ [⟨segment, magic, headerBytes⟩] }, headerBytes)
  | some f =>
    if f.bytes.length < 8 then .error .io
    else if f.bytes.take 8 ≠ magic then .error .badMagic
    else .ok (dir, f.bytes.length)

/-! ## The spool -/

structure Spool where
  dir : Dir
  config : SpoolConfig
  writeSegment : ℕ
  /-- The segment the open file handle appends to. -/
  writer : ℕ
  writeOffset : ℕ
  cursor : Cursor
  droppedFull : ℕ

def Spool.open (dir : Dir) (config : SpoolConfig) : Except SpoolError Spool := do
  let segments := dir.listSegments
  let cursor := readCursor dir
  let writeSegment := segments.getLast?.getD 1
  let (dir, writeOffset) ← openSegmentForAppend dir writeSegment
  return {
    dir := dir
    config := config
    writeSegment := writeSegment
    writer := writeSegment
    writeOffset := writeOffset
    cursor :=
      if cursor.segment = 0 then ⟨segments.head?.getD writeSegment, headerBytes⟩ else cursor
    droppedFull := 0 }

def Spool.totalBytes (s : Spool) : ℕ :=
  (s.dir.listSegments.map fun i => ((s.dir.file i).map fun f => f.bytes.length).getD 0).sum

def Spool.sync (s : Spool) : Spool :=
  { s with dir := s.dir.update s.writer fun f => { f with synced := f.bytes.length } }

def Spool.roll (s : Spool) : Spool × Except SpoolError Unit :=
  let s := s.sync
  let s := { s with writeSegment := s.writeSegment + 1 }
  match openSegmentForAppend s.dir s.writeSegment with
  | .error e => (s, .error e)
  | .ok (dir, offset) =>
    ({ s with dir := dir, writer := s.writeSegment, writeOffset := offset }, .ok ())

variable (hash : Bytes → UInt32)

/-- The end of `push`: one frame appended through the open handle. -/
def Spool.appendFrame (s : Spool) (payload : Bytes) : Spool :=
  let data := frame hash payload
  { s with
    dir := s.dir.update s.writer fun f => { f with bytes := f.bytes ++ data }
    writeOffset := s.writeOffset + data.length }

/-- A push of `len` bytes is for the next segment. -/
def Spool.rolls (s : Spool) (len : ℕ) : Bool :=
  s.config.segmentBytes < s.writeOffset + frameOverhead + len && headerBytes < s.writeOffset

def Spool.push (s : Spool) (payload : Bytes) : Spool × Except SpoolError Bool :=
  if s.config.maxRecordBytes < payload.length then
    (s, .error (.tooLarge payload.length s.config.maxRecordBytes))
  else if s.config.maxTotalBytes < s.totalBytes + payload.length then
    ({ s with droppedFull := s.droppedFull + 1 }, .ok false)
  else
    match if s.rolls payload.length then s.roll else (s, .ok ()) with
    | (s, .error e) => (s, .error e)
    | (s, .ok ()) => (s.appendFrame hash payload, .ok true)

/-- `read_frame`: the payload and what follows it, or nothing more to deliver. -/
def readPayload (bytes : Bytes) : Option (Bytes × Bytes) :=
  (readFrame hash (fun _ => true) some bytes).map fun (payload, _, rest) => (payload, rest)

/-- The inner loop of `peek`: the records read so far, the offset reached and whether `max`
ended it. -/
def readLoop (segment max : ℕ) : ℕ → List (Cursor × Bytes) → ℕ → Bytes →
    List (Cursor × Bytes) × ℕ × Bool
  | 0, out, offset, _ => (out, offset, false)
  | fuel + 1, out, offset, bytes =>
    if max ≤ out.length then (out, offset, true)
    else
      match readPayload hash bytes with
      | some (payload, rest) =>
        let offset := offset + (frameOverhead + payload.length)
        readLoop segment max fuel (out ++ [(⟨segment, offset⟩, payload)]) offset rest
      | none => (out, offset, false)

/-- The outer loop of `peek`, from one segment to the next. -/
def peekLoop (dir : Dir) (max : ℕ) : List ℕ → ℕ → ℕ → List (Cursor × Bytes) →
    List (Cursor × Bytes)
  | [], _, _, out => out
  | segment :: rest, atSegment, atOffset, out =>
    let start := if atSegment < segment then headerBytes else atOffset
    match dir.file segment with
    | none => peekLoop dir max rest (if atSegment < segment then segment else atSegment) start out
    | some f =>
      match readLoop hash segment max (f.bytes.length + 1) out start (f.bytes.drop start) with
      | (out, _, true) => out
      | (out, offset, false) => peekLoop dir max rest segment offset out

def Spool.peek (s : Spool) (max : ℕ) : List (Cursor × Bytes) :=
  peekLoop hash s.dir max (s.dir.listSegments.filter fun i => s.cursor.segment ≤ i)
    s.cursor.segment s.cursor.offset []

def Spool.commit (s : Spool) (cursor : Cursor) : Spool :=
  let dir := writeCursor s.dir cursor
  { s with
    dir := { dir with files := dir.files.filter fun f =>
      !(f.id < cursor.segment && f.id != s.writeSegment) }
    cursor := cursor }

/-- `pending_bytes`: what is on disk after the consumed part of the first segment. -/
def Spool.pendingBytes (s : Spool) : ℕ := s.totalBytes - s.cursor.offset

def Spool.isEmpty (s : Spool) : Bool := (s.peek hash 1).isEmpty

end LogLess.Outbound
