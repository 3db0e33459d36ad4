import LogLess.Model
import LogLess.Lib.Frames

/-!
# The write-ahead log's writer

`WalWriter` appends batches as frames to the current segment, rolls to a new segment on
size or age and syncs on its own thresholds. The bytes a writer has appended to a file
are kept in program order together with how many of them a completed sync covers, so a
crash is a cut of the current file at or after that mark.

File-system calls are taken to succeed; what can fail is the encoding of a batch whose
payload does not fit the frame's length field. The clock readings (`Instant::now`, the
unix time) are arguments of each call.
-/

namespace LogLess.Wal

open Frames

/-- `MAGIC`: the first eight bytes of every segment. -/
def magic : Bytes := [0x4C, 0x47, 0x4C, 0x53, 0x57, 0x41, 0x4C, 0x02]

def frameHeaderBytes : ℕ := 8

/-- Magic and uuid. -/
def headerBytes : ℕ := 24

def maxFrameBytes : ℕ := 256 * 1024 * 1024

abbrev Batch := List LogRecord

/-- The crates the log is written with: `postcard` for a batch, `crc32fast` for a payload. -/
structure Codec where
  toStdvec : Batch → Bytes
  fromBytes : Bytes → Option Batch
  hash : Bytes → UInt32

/-- What the log relies on for the batches `bs`: decoding inverts encoding, and an
encoding is never empty (a `Vec` starts with its length). -/
structure Codec.Inverts (c : Codec) (bs : List Batch) : Prop where
  fromBytes_toStdvec : ∀ b ∈ bs, c.fromBytes (c.toStdvec b) = some b
  toStdvec_ne_nil : ∀ b ∈ bs, c.toStdvec b ≠ []

/-- The frames of a list of batches. -/
def Codec.frames (c : Codec) (bs : List Batch) : Bytes := Frames.frames c.hash (bs.map c.toStdvec)

inductive WalError where
  | encode
  | badMagic
deriving DecidableEq, Repr

/-- A segment file: what has been appended to it and how much of that is synced. -/
structure SegmentFile where
  id : ℕ
  uuid : Uuid
  bytes : Bytes
  synced : ℕ
deriving DecidableEq

/-- `create_segment`: the header is written and synced before the file is used. -/
def createSegment (uuids : ℕ → Uuid) (id : ℕ) : SegmentFile where
  id := id
  uuid := uuids id
  bytes := magic ++ (uuids id).bytes
  synced := headerBytes

structure WalWriter where
  segmentBytes : ℕ
  fsyncInterval : ℕ
  fsyncBytes : ℕ
  /-- The segments this writer has closed, oldest first. -/
  closed : List SegmentFile
  current : SegmentFile
  currentLen : ℕ
  rollAfter : Option ℕ
  currentStarted : ℕ
  unsyncedBytes : ℕ
  lastSync : ℕ
  syncedRecords : ℕ
  reportedRecords : ℕ
  recordsWritten : ℕ
  bytesWritten : ℕ
  syncs : ℕ
  /-- The uuids `Uuid::now_v7` hands out, by segment id. -/
  uuids : ℕ → Uuid

namespace WalWriter

/-- `WalWriter::open` on a directory whose highest segment id is `last`. -/
def «open» (last : Option ℕ) (segmentBytes fsyncInterval fsyncBytes instant : ℕ)
    (uuids : ℕ → Uuid) : WalWriter where
  segmentBytes := segmentBytes
  fsyncInterval := fsyncInterval
  fsyncBytes := fsyncBytes
  closed := []
  current := createSegment uuids (last.elim 1 (· + 1))
  currentLen := headerBytes
  rollAfter := none
  currentStarted := 0
  unsyncedBytes := 0
  lastSync := instant
  syncedRecords := 0
  reportedRecords := 0
  recordsWritten := 0
  bytesWritten := 0
  syncs := 0
  uuids := uuids

/-- The builder `WalWriter::roll_after`. -/
def withRollAfter (w : WalWriter) (after : ℕ) : WalWriter := { w with rollAfter := some after }

def currentSegmentId (w : WalWriter) : ℕ := w.current.id

/-- Flush and `fdatasync`. -/
def sync (w : WalWriter) (instant : ℕ) : WalWriter :=
  { w with
    current := { w.current with synced := w.current.bytes.length }
    unsyncedBytes := 0
    lastSync := instant
    syncedRecords := w.recordsWritten
    syncs := w.syncs + 1 }

/-- Close the current segment and start the next one. -/
def roll (w : WalWriter) (instant : ℕ) : WalWriter :=
  let w := w.sync instant
  { w with
    closed := w.closed ++ [w.current]
    current := createSegment w.uuids (w.current.id + 1)
    currentLen := headerBytes
    currentStarted := 0 }

/-- The three `write_all` calls of `append` and the counters after them. -/
def write (c : Codec) (w : WalWriter) (batch : Batch) : WalWriter :=
  let payload := c.toStdvec batch
  let frameBytes := frameHeaderBytes + payload.length
  { w with
    current := { w.current with bytes := w.current.bytes ++ frame c.hash payload }
    currentLen := w.currentLen + frameBytes
    unsyncedBytes := w.unsyncedBytes + frameBytes
    bytesWritten := w.bytesWritten + frameBytes
    recordsWritten := w.recordsWritten + batch.length }

def append (c : Codec) (w : WalWriter) (batch : Batch) (instant : ℕ) :
    WalWriter × Except WalError Unit :=
  if batch = [] then (w, .ok ())
  else if 2 ^ 32 ≤ (c.toStdvec batch).length then (w, .error .encode)
  else
    let w := w.write c batch
    if w.segmentBytes ≤ w.currentLen then (w.roll instant, .ok ()) else (w, .ok ())

/-- Closes the current segment if it holds records and is older than the roll period. -/
def rollIfDue (w : WalWriter) (now instant : ℕ) : WalWriter × Bool :=
  match w.rollAfter with
  | none => (w, false)
  | some after =>
    if w.currentStarted ≠ 0 ∧ min after (2 ^ 64 - 1) ≤ now - w.currentStarted then
      (w.roll instant, true)
    else (w, false)

/-- The mark `append_at` leaves on an empty segment's first append. -/
def start (w : WalWriter) (now : ℕ) : WalWriter :=
  if w.currentStarted = 0 then { w with currentStarted := max now 1 } else w

def appendAt (c : Codec) (w : WalWriter) (batch : Batch) (now instant : ℕ) :
    WalWriter × Except WalError Unit :=
  if batch = [] then (w, .ok ())
  else ((w.rollIfDue now instant).1.start now).append c batch instant

/-- Sync if the byte or time threshold has been crossed; true when more records are on
disk than at the previous call. -/
def maybeSync (w : WalWriter) (instant : ℕ) : WalWriter × Bool :=
  let w :=
    if 0 < w.unsyncedBytes ∧
        (w.fsyncBytes ≤ w.unsyncedBytes ∨ w.fsyncInterval ≤ instant - w.lastSync) then
      w.sync instant
    else w
  ({ w with reportedRecords := w.syncedRecords }, decide (w.reportedRecords < w.syncedRecords))

/-- The files this writer has created, oldest first. -/
def files (w : WalWriter) : List SegmentFile := w.closed ++ [w.current]

/-- The synced bytes of the log, headers left out. -/
def syncedFrames (w : WalWriter) : Bytes :=
  w.files.flatMap fun f => (f.bytes.take f.synced).drop headerBytes

/-! ## What a writer's files hold -/

/-- A file with a complete header and the frames of `bs`. -/
def HoldsFrames (c : Codec) (f : SegmentFile) (bs : List Batch) : Prop :=
  f.bytes = magic ++ f.uuid.bytes ++ c.frames bs

/-- How the batches of a log lie in its files: `segs` in the closed ones, `cur` in the
current one, where the first `k` are synced. -/
structure Layout (c : Codec) (w : WalWriter) (segs : List (List Batch)) (cur : List Batch)
    (k : ℕ) : Prop where
  closed : List.Forall₂ (fun f bs => HoldsFrames c f bs ∧ f.synced = f.bytes.length) w.closed segs
  current : HoldsFrames c w.current cur
  synced : w.current.synced = headerBytes + (c.frames (cur.take k)).length
  le : k ≤ cur.length
  unsynced : w.unsyncedBytes = (c.frames (cur.drop k)).length
  ids : (w.files.map SegmentFile.id).Pairwise (· < ·)
  lastId : ∀ f ∈ w.closed, f.id < w.current.id

/-- The log holds exactly the batches `bs`, of which the first `n` are synced. -/
def Holds (c : Codec) (w : WalWriter) (bs : List Batch) (n : ℕ) : Prop :=
  ∃ segs cur k, Layout c w segs cur k ∧ bs = segs.flatten ++ cur ∧ n = segs.flatten.length + k

end WalWriter

/-! ## Frames of batches -/

@[simp] theorem Codec.frames_nil (c : Codec) : c.frames [] = [] := rfl

@[simp] theorem Codec.frames_append (c : Codec) (as bs : List Batch) :
    c.frames (as ++ bs) = c.frames as ++ c.frames bs := by
  simp [Codec.frames]

theorem Codec.frames_singleton (c : Codec) (b : Batch) :
    c.frames [b] = frame c.hash (c.toStdvec b) := by
  simp [Codec.frames]

theorem Codec.frames_flatten (c : Codec) (segs : List (List Batch)) :
    c.frames segs.flatten = segs.flatMap c.frames := by
  induction segs with
  | nil => rfl
  | cons s segs ih => simp [ih]

theorem Codec.length_frames_pos (c : Codec) {bs : List Batch} (h : bs ≠ []) :
    0 < (c.frames bs).length := by
  cases bs with
  | nil => exact absurd rfl h
  | cons b bs => simp [Codec.frames, Frames.frames]

theorem length_header (u : Uuid) : (magic ++ u.bytes).length = headerBytes := by
  simp [magic, headerBytes, u.length_bytes]

namespace WalWriter

variable {c : Codec} {w : WalWriter} {bs : List Batch} {n : ℕ}

theorem HoldsFrames.length {f : SegmentFile} (h : HoldsFrames c f bs) :
    f.bytes.length = headerBytes + (c.frames bs).length := by
  rw [h, List.length_append, length_header]

theorem HoldsFrames.drop {f : SegmentFile} (h : HoldsFrames c f bs) :
    f.bytes.drop headerBytes = c.frames bs := by
  rw [h, ← length_header f.uuid, List.drop_left]

/-! ## One step of the writer -/

theorem holds_open (last : Option ℕ) (segmentBytes fsyncInterval fsyncBytes instant : ℕ)
    (uuids : ℕ → Uuid) :
    Holds c (WalWriter.open last segmentBytes fsyncInterval fsyncBytes instant uuids) [] 0 := by
  refine ⟨[], [], 0, ⟨List.Forall₂.nil, ?_, rfl, le_rfl, rfl, ?_, ?_⟩, rfl, rfl⟩
  · simp [HoldsFrames, WalWriter.open, createSegment]
  · simp [files, WalWriter.open]
  · simp [WalWriter.open]

theorem Holds.sync (h : Holds c w bs n) (instant : ℕ) :
    Holds c (w.sync instant) bs bs.length := by
  obtain ⟨segs, cur, k, L, rfl, rfl⟩ := h
  refine ⟨segs, cur, cur.length, ⟨L.closed, L.current, ?_, le_rfl, ?_, ?_, L.lastId⟩, rfl, ?_⟩
  · rw [List.take_length]
    exact L.current.length
  · simp [WalWriter.sync]
  · simpa [files, WalWriter.sync] using L.ids
  · rw [List.length_append]

theorem Holds.roll (h : Holds c w bs n) (instant : ℕ) :
    Holds c (w.roll instant) bs bs.length := by
  obtain ⟨segs, cur, k, L, rfl, hk⟩ := h.sync instant
  -- after the sync the current file is whole, so it joins the closed ones
  obtain rfl : k = cur.length := by
    rw [List.length_append] at hk
    omega
  have hsynced : (w.sync instant).current.synced = (w.sync instant).current.bytes.length := by
    rw [L.synced, List.take_length, L.current.length]
  refine ⟨segs ++ [cur], [], 0, ⟨?_, ?_, rfl, le_rfl, ?_, ?_, ?_⟩, ?_, ?_⟩
  · exact List.rel_append L.closed (List.Forall₂.cons ⟨L.current, hsynced⟩ List.Forall₂.nil)
  · simp [HoldsFrames, WalWriter.roll, createSegment]
  · simp [WalWriter.roll, WalWriter.sync]
  · have hids := L.ids
    simp only [files, WalWriter.roll, createSegment, List.map_append, List.map_cons,
      List.map_nil] at hids ⊢
    rw [List.pairwise_append]
    refine ⟨hids, List.pairwise_singleton _ _, ?_⟩
    intro a ha b hb
    have hb' : b = (w.sync instant).current.id + 1 := by simpa using hb
    rcases List.mem_append.mp ha with ha | ha
    · obtain ⟨f, hf, rfl⟩ := List.mem_map.mp ha
      have := L.lastId f hf
      omega
    · have : a = (w.sync instant).current.id := by simpa using ha
      omega
  · intro f hf
    simp only [WalWriter.roll, createSegment] at hf ⊢
    rcases List.mem_append.mp hf with hf | hf
    · have := L.lastId f hf
      omega
    · have : f = (w.sync instant).current := by simpa using hf
      rw [this]
      omega
  · simp
  · simp

theorem Holds.write (h : Holds c w bs n) (b : Batch) : Holds c (w.write c b) (bs ++ [b]) n := by
  obtain ⟨segs, cur, k, L, rfl, rfl⟩ := h
  have hle := L.le
  refine ⟨segs, cur ++ [b], k, ⟨L.closed, ?_, ?_, ?_, ?_, ?_, L.lastId⟩, ?_, rfl⟩
  · have hc := L.current
    simp only [HoldsFrames, WalWriter.write] at hc ⊢
    rw [hc, c.frames_append, c.frames_singleton, ← List.append_assoc]
  · rw [List.take_append_of_le_length hle]
    exact L.synced
  · simp only [List.length_append, List.length_cons, List.length_nil]
    omega
  · rw [List.drop_append_of_le_length hle, c.frames_append, List.length_append,
      c.frames_singleton, length_frame, ← L.unsynced]
    simp [WalWriter.write, frameHeaderBytes]
  · simpa [files, WalWriter.write] using L.ids
  · rw [List.append_assoc]

theorem Holds.start (h : Holds c w bs n) (now : ℕ) : Holds c (w.start now) bs n := by
  unfold WalWriter.start
  split
  · obtain ⟨segs, cur, k, L, hbs, hn⟩ := h
    exact ⟨segs, cur, k, ⟨L.closed, L.current, L.synced, L.le, L.unsynced, L.ids, L.lastId⟩,
      hbs, hn⟩
  · exact h

theorem Holds.le (h : Holds c w bs n) : n ≤ bs.length := by
  obtain ⟨segs, cur, k, L, rfl, rfl⟩ := h
  have := L.le
  rw [List.length_append]
  omega

/-- Nothing is unsynced exactly when the sync mark is at the end of the log. -/
theorem Holds.unsynced_eq_zero (h : Holds c w bs n) (h0 : w.unsyncedBytes = 0) :
    n = bs.length := by
  obtain ⟨segs, cur, k, L, rfl, rfl⟩ := h
  have hle := L.le
  by_contra hne
  have hdrop : cur.drop k ≠ [] := by
    rw [Ne, List.drop_eq_nil_iff]
    intro hk
    rw [List.length_append] at hne
    omega
  have hpos := c.length_frames_pos hdrop
  have := L.unsynced
  omega

/-- The synced bytes of a log are the frames of its synced batches. -/
theorem Holds.syncedFrames_eq (h : Holds c w bs n) : w.syncedFrames = c.frames (bs.take n) := by
  obtain ⟨segs, cur, k, L, rfl, rfl⟩ := h
  have hclosed : w.closed.flatMap (fun f => (f.bytes.take f.synced).drop headerBytes)
      = c.frames segs.flatten := by
    rw [c.frames_flatten]
    have hall := L.closed
    clear L
    generalize w.closed = fs at hall
    induction hall with
    | nil => rfl
    | cons hf _ ih =>
      rw [List.flatMap_cons, List.flatMap_cons, ih, hf.2, List.take_length, hf.1.drop]
  have hcur : (w.current.bytes.take w.current.synced).drop headerBytes
      = c.frames (cur.take k) := by
    have hsplit : c.frames cur = c.frames (cur.take k) ++ c.frames (cur.drop k) := by
      rw [← c.frames_append, List.take_append_drop]
    rw [L.synced, List.drop_take, L.current.drop, Nat.add_sub_cancel_left, hsplit,
      List.take_left]
  rw [syncedFrames, files, List.flatMap_append, hclosed, List.flatMap_cons, List.flatMap_nil,
    List.append_nil, hcur, ← c.frames_append, List.take_length_add_append]

end WalWriter

end LogLess.Wal
