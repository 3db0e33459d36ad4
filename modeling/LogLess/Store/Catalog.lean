import LogLess.Lib.Assoc
import LogLess.Partition

/-!
# Files of the store and their catalog

A file is named after the segment that produced it: its id and the first twelve hex
digits of its uuid, which is the millisecond a version 7 uuid was made in. The catalog has
one row for each committed file and one for each merged segment.
-/

namespace LogLess.Store

/-! ## File names -/

def hexDigit (n : ℕ) : Char := if n < 10 then Char.ofNat (48 + n) else Char.ofNat (87 + n)

/-- `Uuid::simple`: lower-case hex. -/
def simple (bytes : List UInt8) : Text :=
  bytes.flatMap fun b => [hexDigit (b.toNat / 16), hexDigit (b.toNat % 16)]

def fileNameForSegment (segmentId : ℕ) (segmentUuid : Uuid) : Text :=
  's' :: (Decimal.padded 12 segmentId
    ++ '-' :: ((simple segmentUuid.bytes).take 12 ++ ".parquet".toList))

/-- Where `merge_all` writes the rows of a segment that are in one partition. -/
def filePath (key : PartitionKey) (segmentId : ℕ) (segmentUuid : Uuid) : Path :=
  key.dir ++ [fileNameForSegment segmentId segmentUuid]

theorem hexDigit_inj {m n : ℕ} (hm : m < 16) (hn : n < 16) :
    hexDigit m = hexDigit n ↔ m = n := by
  have hall : ∀ m < 16, ∀ n < 16, hexDigit m = hexDigit n ↔ m = n := by decide
  exact hall m hm n hn

theorem simple_inj {a b : List UInt8} : simple a = simple b ↔ a = b := by
  refine ⟨fun h => ?_, fun h => by rw [h]⟩
  induction a generalizing b with
  | nil =>
    cases b with
    | nil => rfl
    | cons y b => simp [simple] at h
  | cons x a ih =>
    cases b with
    | nil => simp [simple] at h
    | cons y b =>
      have hx := x.toNat_lt
      have hy := y.toNat_lt
      simp only [simple, List.flatMap_cons, List.cons_append, List.nil_append,
        List.cons.injEq] at h
      obtain ⟨hhi, hlo, hrest⟩ := h
      rw [hexDigit_inj (by omega) (by omega)] at hhi
      rw [hexDigit_inj (by omega) (by omega)] at hlo
      rw [ih hrest, ← UInt8.toNat_inj.mp (show x.toNat = y.toNat by omega)]

theorem take_simple (bytes : List UInt8) (n : ℕ) :
    (simple bytes).take (2 * n) = simple (bytes.take n) := by
  induction n generalizing bytes with
  | zero => simp [simple]
  | succ n ih =>
    cases bytes with
    | nil => simp [simple]
    | cons b bytes =>
      have h := ih bytes
      simp only [simple] at h
      simp [simple, Nat.mul_succ, h]

/-- A file name keeps the id and the first six bytes of the uuid, and nothing else. -/
theorem fileNameForSegment_inj {i j : ℕ} {u v : Uuid} :
    fileNameForSegment i u = fileNameForSegment j v ↔
      i = j ∧ u.bytes.take 6 = v.bytes.take 6 := by
  have hdash : ∀ n, '-' ∉ Decimal.padded 12 n := notMem_padded (by decide) 12
  constructor
  · intro h
    simp only [fileNameForSegment, List.cons.injEq, true_and] at h
    have hid : Decimal.padded 12 i = Decimal.padded 12 j := by
      have hsplit := congrArg (Text.splitAt '-') h
      rw [Text.splitAt_append (hdash i), Text.splitAt_append (hdash j)] at hsplit
      exact (List.cons.inj hsplit).1
    rw [hid, List.append_cancel_left_eq, List.cons.injEq, List.append_cancel_right_eq,
      take_simple u.bytes 6, take_simple v.bytes 6, simple_inj] at h
    exact ⟨Decimal.padded_inj.mp hid, h.2⟩
  · rintro ⟨rfl, h⟩
    rw [fileNameForSegment, fileNameForSegment, take_simple u.bytes 6, take_simple v.bytes 6, h]

/-- The path of a file tells its partition, and its segment as far as its name does. -/
theorem filePath_inj {k l : PartitionKey} {i j : ℕ} {u v : Uuid} :
    filePath k i u = filePath l j v ↔ k = l ∧ i = j ∧ u.bytes.take 6 = v.bytes.take 6 := by
  rw [filePath, filePath, List.append_singleton_inj, PartitionKey.dir_inj, fileNameForSegment_inj]

/-! ## What the catalog records -/

/-- `u64 as i64`. -/
def toI64 (n : ℕ) : ℤ := if n % 2 ^ 64 < 2 ^ 63 then n % 2 ^ 64 else (n % 2 ^ 64 : ℕ) - 2 ^ 64

/-- What the footer of a file says about its rows. Its size in bytes is left out. -/
structure FileStats where
  rows : ℕ
  minTsNanos : ℤ
  maxTsNanos : ℤ
  minObservedNanos : ℤ
  maxObservedNanos : ℤ
deriving DecidableEq

/-- The least and the greatest of some times, or zeros when there are none. -/
def timeRange : List ℤ → ℤ × ℤ
  | [] => (0, 0)
  | t :: ts => (ts.foldl min t, ts.foldl max t)

def fileStats (rows : List LogRecord) : FileStats :=
  let ts := timeRange (rows.map fun r => toI64 r.timestampUnixNano)
  let observed := timeRange (rows.map fun r => toI64 r.observedUnixNano)
  ⟨rows.length, ts.1, ts.2, observed.1, observed.2⟩

structure FileEntry where
  path : Path
  key : PartitionKey
  stats : FileStats

/-- Rows of one template in one service of one index within a merged segment. -/
structure TemplateSighting where
  tenant : Text
  index : Text
  templateId : ℕ
  service : Option Text
  rows : ℕ
  firstObservedNanos : ℤ
  lastObservedNanos : ℤ

abbrev SightingKey := Text × Text × ℕ × Option Text

structure Catalog where
  files : List (Path × PartitionKey × FileStats)
  /-- The uuid of each merged segment, with its id and when it was merged. -/
  mergedSegments : List (Uuid × ℕ × ℕ)
  templateServices : List (SightingKey × ℕ × ℤ × ℤ)

namespace Catalog

def empty : Catalog := ⟨[], [], []⟩

def isSegmentMerged (c : Catalog) (uuid : Uuid) : Bool :=
  (Assoc.get c.mergedSegments uuid).isSome

/-- A row for a file, or new numbers for the row at its path. -/
def upsertFile (c : Catalog) (f : FileEntry) : Catalog :=
  let key := ((Assoc.get c.files f.path).map Prod.fst).getD f.key
  { c with files := Assoc.insert c.files f.path (key, f.stats) }

def upsertSighting (c : Catalog) (s : TemplateSighting) : Catalog :=
  let at_ := (s.tenant, s.index, s.templateId, s.service)
  let row :=
    match Assoc.get c.templateServices at_ with
    | some (rows, first, last) =>
      (rows + s.rows, min first s.firstObservedNanos, max last s.lastObservedNanos)
    | none => (s.rows, s.firstObservedNanos, s.lastObservedNanos)
  { c with templateServices := Assoc.insert c.templateServices at_ row }

/-- `commit_merge`: one transaction. -/
def commitMerge (c : Catalog) (segmentId : ℕ) (segmentUuid : Uuid) (files : List FileEntry)
    (sightings : List TemplateSighting) (now : ℕ) : Catalog :=
  let c := sightings.foldl upsertSighting c
  let c := files.foldl upsertFile c
  { c with mergedSegments := Assoc.insert c.mergedSegments segmentUuid (segmentId, now) }

variable (c : Catalog)

def paths : List Path := c.files.map Prod.fst

@[simp] theorem files_upsertSightings (ss : List TemplateSighting) :
    (ss.foldl upsertSighting c).files = c.files := by
  induction ss generalizing c with
  | nil => rfl
  | cons s ss ih => exact ih _

@[simp] theorem mergedSegments_upsertSightings (ss : List TemplateSighting) :
    (ss.foldl upsertSighting c).mergedSegments = c.mergedSegments := by
  induction ss generalizing c with
  | nil => rfl
  | cons s ss ih => exact ih _

@[simp] theorem mergedSegments_upsertFiles (fs : List FileEntry) :
    (fs.foldl upsertFile c).mergedSegments = c.mergedSegments := by
  induction fs generalizing c with
  | nil => rfl
  | cons f fs ih => exact ih _

variable {c}

/-- Files at new, different paths are added to those there are. -/
theorem paths_upsertFiles {fs : List FileEntry} (hnew : ∀ f ∈ fs, f.path ∉ c.paths)
    (hnodup : (fs.map FileEntry.path).Nodup) :
    (fs.foldl upsertFile c).paths = c.paths ++ fs.map FileEntry.path := by
  induction fs generalizing c with
  | nil => simp
  | cons f fs ih =>
    rw [List.map_cons, List.nodup_cons] at hnodup
    have hf := hnew f List.mem_cons_self
    have hpaths : (c.upsertFile f).paths = c.paths ++ [f.path] := by
      rw [paths, upsertFile, Assoc.insert_of_notMem hf]
      simp [paths]
    rw [List.foldl_cons, ih ?_ hnodup.2, hpaths]
    · simp
    · intro g hg hmem
      rw [hpaths] at hmem
      rcases List.mem_append.mp hmem with hmem | hmem
      · exact hnew g (List.mem_cons_of_mem _ hg) hmem
      · rw [List.mem_singleton] at hmem
        exact hnodup.1 (hmem ▸ List.mem_map_of_mem hg)

theorem paths_commitMerge {id now : ℕ} {uuid : Uuid} {fs : List FileEntry}
    {ss : List TemplateSighting} (hnew : ∀ f ∈ fs, f.path ∉ c.paths)
    (hnodup : (fs.map FileEntry.path).Nodup) :
    (c.commitMerge id uuid fs ss now).paths = c.paths ++ fs.map FileEntry.path := by
  have hpaths : (ss.foldl upsertSighting c).paths = c.paths := by simp [paths]
  have hfiles : (fs.foldl upsertFile (ss.foldl upsertSighting c)).paths
      = (ss.foldl upsertSighting c).paths ++ fs.map FileEntry.path :=
    paths_upsertFiles (by rw [hpaths]; exact hnew) hnodup
  rw [hpaths] at hfiles
  exact hfiles

theorem isSegmentMerged_commitMerge {id now : ℕ} {uuid v : Uuid} {fs : List FileEntry}
    {ss : List TemplateSighting} :
    (c.commitMerge id uuid fs ss now).isSegmentMerged v = true ↔
      v = uuid ∨ c.isSegmentMerged v = true := by
  simp only [isSegmentMerged, commitMerge, mergedSegments_upsertFiles,
    mergedSegments_upsertSightings, Assoc.get_insert]
  split
  · next h => simp [h]
  · next h => simp [h]

end Catalog

end LogLess.Store
