import LogLess.Lib.Assoc
import LogLess.Lib.Decimal
import LogLess.Lib.Text
import LogLess.Lib.Utf8

/-!
# The file tailer

A poll reads what has been appended to each tailed file since the last one, and hands on
the complete lines. Where it stands in a file is a cursor: the identity of the file, the
offset read so far, the fragment of a line read without its newline, and the open handle.
The cursors without their fragments are saved in a checkpoint after each poll.

Which files are tailed (patterns and exclusions) is decided elsewhere; here a tailer has a
list of paths, each with the settings of its source.
-/

namespace LogLess.Tail

abbrev Bytes := List UInt8

/-- Identity of a file, independent of its name. -/
structure FileId where
  device : UInt64
  inode : UInt64
deriving DecidableEq

/-- The regular files a poll finds: which one is at a path, and what it holds. -/
structure Fs where
  resolve : Bytes → Option FileId
  content : FileId → Bytes

structure Cursor where
  id : FileId
  offset : ℕ
  /-- A trailing fragment with no newline yet. -/
  fragment : List Char
  handle : Option FileId
deriving DecidableEq

structure TailStats where
  linesRead : ℕ
  bytesRead : ℕ
  rotations : ℕ
  truncations : ℕ
  disappeared : ℕ
deriving DecidableEq

/-- The settings of the source a path belongs to. -/
structure Source where
  fromEnd : Bool
  service : Option (List Char)
  index : Option (List Char)

structure Tailer where
  paths : List (Bytes × Source)
  cursors : List (Bytes × Cursor)
  started : Bool
  stats : TailStats

/-- A line handed on, with what its source says about it. -/
structure Emitted where
  path : Bytes
  service : Option (List Char)
  index : Option (List Char)
  line : List Char

/-! ## Reading through the handle -/

/-- The lines of a text read so far and the fragment behind its last newline. -/
def completeLines (text : List Char) : List (List Char) × List Char :=
  let (complete, remainder) := (Text.rsplitOnce '\n' text).getD ([], text)
  ((Text.splitAt '\n' complete).filter fun line => !line.isEmpty, remainder)

/-- `drain_handle`: everything available through the cursor's handle. -/
def drainHandle (fs : Fs) (cursor : Cursor) (stats : TailStats) :
    Cursor × TailStats × List (List Char) :=
  match cursor.handle with
  | none => (cursor, stats, [])
  | some file =>
    let content := fs.content file
    if content.length ≤ cursor.offset then (cursor, stats, [])
    else
      let buffer := content.drop cursor.offset
      let (lines, remainder) := completeLines (cursor.fragment ++ Utf8.lossy buffer)
      ({ cursor with offset := cursor.offset + buffer.length, fragment := remainder },
        { stats with
          bytesRead := stats.bytesRead + buffer.length
          linesRead := stats.linesRead + lines.length },
        lines)

/-! ## One path -/

def pollOne (fs : Fs) (t : Tailer) (path : Bytes) (startAtEnd : Bool) :
    Tailer × List (List Char) :=
  match fs.resolve path with
  | none =>
    -- gone for now: the cursor is kept
    if (Assoc.get t.cursors path).isSome then
      ({ t with stats := { t.stats with disappeared := t.stats.disappeared + 1 } }, [])
    else (t, [])
  | some id =>
    let len := (fs.content id).length
    let cursor := (Assoc.get t.cursors path).getD ⟨id, if startAtEnd then len else 0, [], none⟩
    let cursor :=
      if cursor.handle.isNone then
        -- a restored cursor of a file that rotated meanwhile starts over
        if cursor.id ≠ id then ⟨id, 0, [], some id⟩ else { cursor with handle := some id }
      else cursor
    let (cursor, stats, drained) :=
      if cursor.id ≠ id then
        -- rotated: drain the old file, flush its fragment, go to the new one
        let stats := { t.stats with rotations := t.stats.rotations + 1 }
        let (old, stats, lines) := drainHandle fs cursor stats
        let leftover := if old.fragment.isEmpty then [] else [old.fragment]
        let stats := { stats with linesRead := stats.linesRead + leftover.length }
        ((⟨id, 0, [], some id⟩ : Cursor), stats, lines ++ leftover)
      else if len < cursor.offset then
        let stats := { t.stats with truncations := t.stats.truncations + 1 }
        ({ cursor with offset := 0, fragment := [], handle := some id }, stats, [])
      else (cursor, t.stats, [])
    let (cursor, stats, lines) := drainHandle fs cursor stats
    ({ t with cursors := Assoc.insert t.cursors path cursor, stats := stats }, drained ++ lines)

/-! ## All paths -/

/-- `poll_routed`, without the checkpoint it saves at its end. -/
def pollRouted (fs : Fs) (t : Tailer) : Tailer × List Emitted :=
  let initial := !t.started
  t.paths.foldl
    (fun (acc : Tailer × List Emitted) (entry : Bytes × Source) =>
      let (path, source) := entry
      let (t, lines) := pollOne fs acc.1 path (source.fromEnd && initial)
      (t, acc.2 ++ lines.map fun line => ⟨path, source.service, source.index, line⟩))
    ({ t with started := true }, [])

/-! ## The checkpoint -/

/-- One line of the checkpoint, or nothing for a name that would break the format. -/
def checkpointLine (entry : Bytes × Cursor) : List Char :=
  let name := Utf8.lossy entry.1
  let cursor := entry.2
  if '\t' ∈ name ∨ '\n' ∈ name then []
  else
    name ++ '\t' :: Decimal.ofNat cursor.id.device.toNat
      ++ '\t' :: Decimal.ofNat cursor.id.inode.toNat
      ++ '\t' :: Decimal.ofNat cursor.offset ++ ['\n']

def saveCheckpoint (t : Tailer) : List Char := t.cursors.flatMap checkpointLine

/-- One line read back: fragments are not persisted. -/
def checkpointEntry (line : List Char) : Option (Bytes × Cursor) :=
  match Text.splitAt '\t' line with
  | [name, device, inode, offset] => do
    let device ← Decimal.parse device
    let inode ← Decimal.parse inode
    let offset ← Decimal.parse offset
    return (Utf8.encode name, ⟨⟨UInt64.ofNat device, UInt64.ofNat inode⟩, offset, [], none⟩)
  | _ => none

def loadCheckpoint (text : Option (List Char)) : List (Bytes × Cursor) :=
  ((Text.bufLines (text.getD [])).filterMap checkpointEntry).foldl
    (fun cursors entry => Assoc.insert cursors entry.1 entry.2) []

/-- A tailer of the given paths, with the cursors of a checkpoint. -/
def Tailer.new (paths : List (Bytes × Source)) (checkpoint : Option (List Char)) : Tailer :=
  ⟨paths, loadCheckpoint checkpoint, false, ⟨0, 0, 0, 0, 0⟩⟩

end LogLess.Tail
