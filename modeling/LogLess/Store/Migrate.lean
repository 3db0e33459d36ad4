import LogLess.Lib.Rewriting
import LogLess.Store.Compact
import LogLess.Store.Dictionary

/-!
# The migration of the layout

Before there were tenants and indexes a file was at `hour=<observed hour>/level=<bucket>/<file>`,
and the template ids of its rows were counters of the miner. `migrate` regroups the rows of such a
file by event hour and severity bucket, writes each group under a name derived from the old path,
and removes the old file. Then every file whose footer says another version than the current one
is rewritten in place with the hashes of the templates for the counters, the sightings are counted
anew and the catalog is rebuilt.

A run is a list of durable changes, of which a crash or an error leaves a first part done. A file
reads as the rows written to it; typed columns and emptied directories are left out. SHA-256 is a
parameter.
-/

namespace LogLess.Store

/-- `schema::SCHEMA_VERSION`: from this version on a template id is a hash. -/
def schemaVersion : Text := "4".toList

/-- A Parquet file of the store. -/
structure StoredFile where
  /-- `logless.schema_version`, if the footer says one. -/
  version : Option Text
  rows : List LogRecord
deriving DecidableEq

/-- `write_partition_file_with`. -/
def StoredFile.written (rows : List LogRecord) : StoredFile := ⟨some schemaVersion, rows⟩

/-- The store's directory and the catalog. -/
structure Archive where
  files : List (Path × StoredFile)
  catalog : Catalog

structure MigrateReport where
  filesRead : ℕ
  filesWritten : ℕ
  rows : ℕ
  /-- Rows whose event hour is not the hour of the directory they were in. -/
  rowsMovedHour : ℕ
  /-- Files in the catalog after the rebuild. -/
  catalogFiles : ℕ
  filesRekeyed : ℕ
  /-- Rows whose counter was replaced by a hash. -/
  rowsRekeyed : ℕ
  /-- Rows whose counter the catalog does not know. -/
  rowsUnmapped : ℕ
deriving DecidableEq

/-- `MigrateReport::default`. -/
def MigrateReport.zero : MigrateReport := ⟨0, 0, 0, 0, 0, 0, 0, 0⟩

/-! ## Template ids -/

/-- `counter_to_hash`: the hash of the text that a counter of the miner has now. -/
def TemplateTables.counterToHash (t : TemplateTables) (counter : ℕ) : Option ℕ :=
  (Assoc.get t.templates counter).map fun row => fingerprintOf row.text

/-- Replaces the counters of some rows by hashes, and counts what it did. -/
def rekey (counters : ℕ → Option ℕ) (report : MigrateReport) :
    List LogRecord → List LogRecord × MigrateReport
  | [] => ([], report)
  | r :: records =>
    match r.templateId with
    | none =>
      let (records, report) := rekey counters report records
      (r :: records, report)
    | some counter =>
      let hash := counters counter
      let report :=
        if hash.isSome then { report with rowsRekeyed := report.rowsRekeyed + 1 }
        else { report with rowsUnmapped := report.rowsUnmapped + 1 }
      let (records, report) := rekey counters report records
      ({ r with templateId := hash } :: records, report)

/-! ## Old files -/

/-- The hour in the path of a file of the old layout: its directories are `hour=` and `level=`. -/
def oldHour : Path → Option ℕ
  | [hour, level, _] => do
    let hour ← ("hour=".toList.isPrefixOf? hour).bind parseHour
    let _ ← "level=".toList.isPrefixOf? level
    return hour
  | _ => none

namespace Archive

variable (a : Archive)

def paths : List Path := a.files.map Prod.fst

/-- `list_parquet_files`. -/
def listing : List Path := a.paths.insertionSort fun p q => (compare p q).isLE = true

/-- `old_files`: the files of the old layout, with their hours. -/
def oldFiles : List (Path × ℕ) := a.listing.filterMap fun p => (oldHour p).map fun hour => (p, hour)

/-- The file at a path of the listing. -/
def fileAt (path : Path) : StoredFile := (Assoc.get a.files path).getD (.written [])

end Archive

/-- The bytes of the digest a derived name is made of. -/
theorem length_take_digest (d : ByteArr 32) : (d.1.take 16).length = 16 := by
  rw [List.length_take, d.2]
  rfl

/-- `Uuid::from_slice` of the first half of a digest. -/
def digestUuid (d : ByteArr 32) : Uuid := ⟨d.1.take 16, length_take_digest d⟩

/-- What names the output of an old file for an event hour. -/
def outputText (old : Path) (epochHour : ℕ) : Text :=
  List.intercalate ['/'] old ++ Char.ofNat 0x1F :: Decimal.ofNat epochHour

/-- The partition a row of an old file goes to. -/
def migratedKey (tenancy : Tenancy) (r : LogRecord) : PartitionKey where
  tenant := tenancy.tenant
  index := (tenancy.defaultIndexOf tenancy.tenant).getD defaultIndex
  epochHour := r.timestampUnixNano / nanosPerHour
  -- the buckets of a checked tenancy are not empty
  bucket := ((tenancy.defaultBuckets.bucketFor r.severity).map LevelBucket.name).getD []
  node := tenancy.node

/-- Rows by partition, in the order of the keys. -/
def regroup (tenancy : Tenancy) (records : List LogRecord) :
    List (PartitionKey × List LogRecord) :=
  let groups := records.foldl (fun groups r => addToGroup groups (migratedKey tenancy r) r) []
  groups.insertionSort fun a b => PartitionKey.le a.1 b.1 = true

/-! ## A run -/

/-- What a run does to the store and the catalog, one durable change at a time. -/
inductive MigrateStep where
  | write (path : Path) (rows : List LogRecord)
  | remove (path : Path)
  | replaceSightings (sightings : List TemplateSighting)
  | rebuild

/-- `replace_sightings`: one transaction. -/
def Catalog.replaceSightings (c : Catalog) (sightings : List TemplateSighting) : Catalog :=
  sightings.foldl Catalog.upsertSighting { c with templateServices := [] }

namespace Archive

variable (a : Archive)

/-- The rows of the files that are at a leaf of the tree. -/
def leaves : List (PartitionKey × List LogRecord) :=
  a.listing.filterMap fun p => (keyOfPath p).map fun key => (key, (a.fileAt p).rows)

/-- `Catalog::rebuild`. -/
def rebuild : Archive :=
  let entries := a.listing.filterMap fun p =>
    (keyOfPath p).map fun key => (⟨p, key, fileStats (a.fileAt p).rows⟩ : FileEntry)
  { a with catalog := entries.foldl Catalog.upsertFile { a.catalog with files := [] } }

def apply : MigrateStep → Archive
  | .write path rows => { a with files := Assoc.insert a.files path (.written rows) }
  | .remove path => { a with files := Assoc.erase a.files path }
  | .replaceSightings sightings => { a with catalog := a.catalog.replaceSightings sightings }
  | .rebuild => a.rebuild

def applyAll (steps : List MigrateStep) : Archive := Runs.run apply a steps

end Archive

section

variable (sha256 : Text → ByteArr 32) (tenancy : Tenancy) (tables : TemplateTables)

/-- Where the rows of an old file that are for a partition go. Like a compacted file it has the
segment id zero. -/
def outputPath (old : Path) (key : PartitionKey) : Path :=
  filePath key 0 (digestUuid (sha256 (outputText old key.epochHour)))

/-- One old file: its outputs, and its removal. -/
def migrateFile (a : Archive) (old : Path) (hour : ℕ) (report : MigrateReport) :
    List MigrateStep × MigrateReport :=
  let (records, report) := rekey tables.counterToHash report (a.fileAt old).rows
  let moved := records.filter fun r => r.timestampUnixNano / nanosPerHour != hour
  let byKey := regroup tenancy records
  (byKey.map (fun x => .write (outputPath sha256 old x.1) (sortRecords x.2)) ++ [.remove old],
    { report with
      rows := report.rows + records.length
      rowsMovedHour := report.rowsMovedHour + moved.length
      filesWritten := report.filesWritten + byKey.length
      filesRekeyed := report.filesRekeyed + byKey.length
      filesRead := report.filesRead + 1 })

/-- The loop over the old files. -/
def migrateFiles : List (Path × ℕ) → Archive → MigrateReport → List MigrateStep × MigrateReport
  | [], _, report => ([], report)
  | (old, hour) :: files, a, report =>
    let (steps, report) := migrateFile sha256 tenancy tables a old hour report
    let (rest, report) := migrateFiles files (a.applyAll steps) report
    (steps ++ rest, report)

/-- One file of the listing: it is rewritten if it is from before the ids were hashes. -/
def rekeyFile (a : Archive) (path : Path) (report : MigrateReport) :
    List MigrateStep × List LogRecord × MigrateReport :=
  let file := a.fileAt path
  if file.version ≠ some schemaVersion then
    let (records, report) := rekey tables.counterToHash report file.rows
    ([.write path records], records, { report with filesRekeyed := report.filesRekeyed + 1 })
  else ([], file.rows, report)

/-- The loop over all files, and the rows that are counted for the sightings. -/
def rekeyFiles : List Path → Archive → MigrateReport →
    List MigrateStep × List (PartitionKey × List LogRecord) × MigrateReport
  | [], _, report => ([], [], report)
  | path :: paths, a, report =>
    let (steps, records, report) := rekeyFile tables a path report
    let (rest, seen, report) := rekeyFiles paths (a.applyAll steps) report
    (steps ++ rest, ((keyOfPath path).map fun key => (key, records)).toList ++ seen, report)

/-- `migrate`: everything a run does, and its report. -/
def migrate (a : Archive) : List MigrateStep × MigrateReport :=
  let (moves, report) := migrateFiles sha256 tenancy tables a.oldFiles a .zero
  let a := a.applyAll moves
  let (rekeys, seen, report) := rekeyFiles tables a.listing a report
  let a := a.applyAll rekeys
  (moves ++ rekeys ++ [.replaceSightings (sightingsOf seen), .rebuild],
    { report with catalogFiles := (a.listing.filterMap keyOfPath).length })

/-- The archive after a run that stops after `stop` changes, or at its end. -/
def Archive.migrated (a : Archive) (stop : Option ℕ) : Archive :=
  let steps := (migrate sha256 tenancy tables a).1
  a.applyAll (stop.elim steps steps.take)

end

end LogLess.Store
