import LogLess.Store.ExactlyOnce

/-!
# Compaction, rebuild and the maintenance pass

`compact` takes its inputs from the listing of the store's directory. For a partition with
enough small files it writes their rows to one new file, records that in the catalog, and
unlinks the inputs. `maintenance_pass` merges the two log directories and then compacts,
whether or not the merges got to their ends. `rebuild` lists the files of the store in an
emptied catalog.

What a pass does to the disk is a list of changes, of which a crash leaves a first part done.
The sizes of files and when they were written are parameters of a pass, as are the uuids it
draws. A file reads as the rows that were written to it; typed columns are left out.
-/

namespace LogLess.Store

open Wal Frames

/-! ## Changes -/

inductive Change where
  | merge (e : Effect)
  | write (path : Path) (rows : List LogRecord)
  | record (output : FileEntry) (replaced : List Path)
  | unlink (path : Path)

/-- `record_compaction`: one transaction. -/
def Catalog.recordCompaction (c : Catalog) (output : FileEntry) (replaced : List Path) : Catalog :=
  replaced.foldl (fun c old => { c with files := Assoc.erase c.files old }) (c.upsertFile output)

def Disk.change (d : Disk) : Change → Disk
  | .merge e => d.apply e
  | .write path rows => { d with store := Assoc.insert d.store path rows }
  | .record output replaced => { d with catalog := d.catalog.recordCompaction output replaced }
  | .unlink path => { d with store := Assoc.erase d.store path }

def Disk.changeAll (d : Disk) (changes : List Change) : Disk := changes.foldl Disk.change d

/-- The paths of the files there are. -/
def Disk.paths (d : Disk) : List Path := d.store.map Prod.fst

def Disk.rowsAt (d : Disk) (path : Path) : List LogRecord := (Assoc.get d.store path).getD []

/-- `list_parquet_files`. -/
def Disk.listing (d : Disk) : List Path :=
  d.paths.insertionSort fun a b => (compare a b).isLE = true

/-! ## Compaction -/

structure CompactConfig where
  minFiles : ℕ
  targetBytes : ℕ
  keepAboveBytes : ℕ
  maxPartitions : ℕ
  /-- In seconds. -/
  quiet : ℕ

/-- `CompactConfig::default`, with the quiet time of the store's configuration. -/
def CompactConfig.default (quiet : ℕ) : CompactConfig :=
  ⟨4, 128 * 1024 * 1024, 32 * 1024 * 1024, 4, quiet⟩

/-- What a pass reads of the files and the clock, and the uuids it draws. -/
structure Surroundings where
  size : Path → Option ℕ
  writtenUnixSecs : Path → Option ℕ
  /-- `None` applies no quiet time. -/
  nowUnixSecs : Option ℕ
  uuid : ℕ → Uuid

/-- One output and the files it replaces. -/
structure Replacement where
  key : PartitionKey
  uuid : Uuid
  consumed : List Path
  rows : List LogRecord

/-- A compacted file has the segment id zero, which no segment of the log has. -/
def Replacement.path (r : Replacement) : Path := filePath r.key 0 r.uuid

def Replacement.changes (r : Replacement) : List Change :=
  .write r.path r.rows :: .record ⟨r.path, r.key, fileStats r.rows⟩ r.consumed
    :: r.consumed.map .unlink

def Disk.replace (d : Disk) (r : Replacement) : Disk := d.changeAll r.changes

section

variable (config : CompactConfig) (env : Surroundings)

/-- The loop that takes inputs until the output would be too large. -/
def takeInputs (consumed : List Path) (bytesBefore : ℕ) : List Path → List Path
  | [] => consumed
  | path :: candidates =>
    let size := (env.size path).getD 0
    if config.targetBytes < bytesBefore + size ∧ consumed ≠ [] then consumed
    else takeInputs (consumed ++ [path]) (bytesBefore + size) candidates

/-- What is compacted of a partition, if anything. -/
def inputs (files : List Path) : Option (List Path) :=
  if files.length < config.minFiles then none
  else
    let newest := (files.filterMap env.writtenUnixSecs).foldl max 0
    if env.nowUnixSecs.any fun now => now - newest < config.quiet then none
    else
      let candidates := (files.insertionSort fun a b => (compare a b).isLE = true).filter
        fun p => (env.size p).any fun n => n < config.keepAboveBytes
      if candidates.length < config.minFiles then none
      else
        let consumed := takeInputs config env [] 0 candidates
        if consumed.length < config.minFiles then none else some consumed

/-- Oldest hour first. -/
def partitionLe (a b : PartitionKey) : Bool :=
  ((compare a.epochHour b.epochHour).then (if a.le b then .lt else .gt)).isLE

/-- The files by partition, one writer's leaf each. -/
def Disk.byPartition (d : Disk) : List (PartitionKey × List Path) :=
  let keys := (d.listing.filterMap keyOfPath).dedup.insertionSort fun a b => partitionLe a b = true
  keys.map fun key => (key, d.listing.filter fun p => keyOfPath p = some key)

/-- The loop over the partitions, with the number compacted so far. -/
def compactLoop : ℕ → List (PartitionKey × List Path) → Disk → List Replacement
  | _, [], _ => []
  | n, (key, files) :: partitions, d =>
    if config.maxPartitions ≤ n then []
    else
      match inputs config env files with
      | none => compactLoop n partitions d
      | some consumed =>
        let r : Replacement :=
          ⟨key, env.uuid n, consumed, sortRecords (consumed.flatMap d.rowsAt)⟩
        r :: compactLoop (n + 1) partitions (d.replace r)

/-- `compact`: the replacements it makes, one after another. -/
def compact (d : Disk) : List Replacement := compactLoop config env 0 d.byPartition d

end

/-! ## Rebuild -/

/-- `Catalog::rebuild`. -/
def Disk.rebuild (d : Disk) : Disk :=
  let entries := d.listing.filterMap fun p =>
    (keyOfPath p).map fun key => (⟨p, key, fileStats (d.rowsAt p)⟩ : FileEntry)
  { d with catalog := entries.foldl Catalog.upsertFile { d.catalog with files := [] } }

/-! ## The maintenance pass -/

structure Pass (δ : Type) where
  active : WalDir → Option ℕ
  now : ℕ
  drain : δ
  /-- An I/O error ends the merges after so many changes. -/
  fails : Option ℕ
  config : CompactConfig
  env : Surroundings

inductive Maintenance (δ : Type) where
  /-- A segment that is closed, whatever follows its header. -/
  | arrive (dir : WalDir) (id : ℕ) (uuid : Uuid) (body : Bytes)
  | headerless (dir : WalDir) (id : ℕ) (bytes : Bytes)
  /-- A pass that stops after `stop` changes to the disk, or at its end. -/
  | pass (p : Pass δ) (stop : Option ℕ)
  | rebuild

section

variable (c : Codec) (tenancy : Tenancy) {δ : Type} (addLine : Miner δ)

/-- What the merges of a pass do: the main directory, and the late one unless that failed. -/
def Pass.merges (p : Pass δ) (d : Disk) : List Effect :=
  let (main, result) := mergeAll c tenancy addLine .main (p.active .main) p.now d p.drain
  let late :=
    match result with
    | .error _ => []
    | .ok (drain, _) =>
      (mergeAll c tenancy addLine .late (p.active .late) p.now (d.applyAll main) drain).1
  done p.fails (main ++ late)

/-- The compaction that follows the merges. -/
def Pass.compaction (p : Pass δ) (d : Disk) : List Replacement :=
  compact p.config p.env (d.applyAll (p.merges c tenancy addLine d))

def Pass.changes (p : Pass δ) (d : Disk) : List Change :=
  (p.merges c tenancy addLine d).map .merge
    ++ (p.compaction c tenancy addLine d).flatMap Replacement.changes

/-- The batches that a replay of the segment visits. -/
def visitedBatches (uuid : Uuid) (body : Bytes) : List Batch :=
  match replaySegment c true (segmentBytes uuid body) with
  | .ok r => r.visited
  | .error _ => []

def World.maintain (w : World) : Maintenance δ → World
  | .arrive dir id uuid body =>
    { disk := w.disk.addFile dir ⟨id, segmentBytes uuid body⟩
      arrived := w.arrived ++ [(dir, ⟨id, uuid, visitedBatches c uuid body, []⟩)] }
  | .headerless dir id bytes => { w with disk := w.disk.addFile dir ⟨id, bytes⟩ }
  | .pass p stop =>
    let changes := p.changes c tenancy addLine w.disk
    { w with disk := w.disk.changeAll (stop.elim changes changes.take) }
  | .rebuild => { w with disk := w.disk.rebuild }

end

/-- All rows of the files on the disk. -/
def Disk.stored (d : Disk) : List LogRecord := d.store.flatMap Prod.snd

end LogLess.Store
