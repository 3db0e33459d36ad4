import LogLess.Restore.Part
import LogLess.Store.Dictionary

/-!
# The restore

`restore` lists a source, fetches each part, installs those that pass every check, and rebuilds
the catalog of the target: its files from the store, its templates and sightings from the parts.
With `force` the target may hold a store and a catalog already.

The export of the dictionary and the time a restore takes are left out. An error that the
operating system or the database gives is left out too, except that a file of the store may have
no readable footer.
-/

namespace LogLess.Restore

open Store

/-- Why a fetch failed. -/
inductive FetchError where
  | notFound
  | other (why : Text)

/-- Where parts come from. -/
structure PartSource (β : Type) where
  /-- What a directory or a bucket lists: the names of files, and what is not a file of it. -/
  entries : Except Text (List (Option Text))
  fetch : Text → Except FetchError β

/-- `PartSource::list`: the names of parts, sorted and each once, and how many other keys there
are. -/
def PartSource.list {β : Type} (source : PartSource β) : Except Text (List Text × ℕ) :=
  source.entries.map fun entries =>
    let names := (entries.filterMap id).filter validName
    (names.dedup.insertionSort fun a b => (compare a b).isLE = true,
      (entries.filter fun e => !(e.any validName)).length)

/-- A row of `files`, with the size of the file. -/
structure FileRow where
  key : PartitionKey
  stats : FileStats
  bytes : ℕ

structure CatalogTables where
  files : List (Path × FileRow)
  templateServices : List (SightingKey × ℕ × ℤ × ℤ)
  tables : TemplateTables

/-- A catalog that is opened where there is none. -/
def CatalogTables.empty : CatalogTables := ⟨[], [], .empty⟩

structure Target (β : Type) where
  /-- The Parquet files of the store. -/
  files : List (Path × β)
  catalog : Option CatalogTables

/-- The parts the inventory has, by name. -/
structure Inventory where
  parts : List (Text × Expected)
  nodup : (parts.map Prod.fst).Nodup

structure Options where
  inventory : Option Inventory
  tenancy : Tenancy
  force : Bool
  reverify : Bool

def Options.inventoried (o : Options) : List Text :=
  (o.inventory.map fun i => i.parts.map Prod.fst).getD []

def Options.expected (o : Options) (name : Text) : Option Expected :=
  o.inventory.bind fun i => Assoc.get i.parts name

structure Report where
  listed : ℕ
  ignoredKeys : ℕ
  inventory : Option ℕ
  restored : ℕ
  rows : ℕ
  bytes : ℕ
  hashMismatch : List Text
  sizeMismatch : List Text
  rowsMismatch : List Text
  unreadable : List Text
  fetchFailed : List Text
  missing : List Text
  /-- Intact, but not in the inventory. -/
  notInInventory : List Text
  multiPartition : ℕ
  templates : ℕ
  templateServices : ℕ
  rowsByTemplate : List (Option ℕ × ℕ)
  catalogFiles : ℕ
  catalogRows : ℕ
  catalogBytes : ℕ
  /-- Installed files whose bytes no longer hash to their name, and the catalog. -/
  reverifyBad : List Text
  /-- The part and the reason. -/
  details : List (Text × Text)

/-- `Report::default`. -/
def Report.zero : Report :=
  ⟨0, 0, none, 0, 0, 0, [], [], [], [], [], [], [], 0, 0, 0, [], 0, 0, 0, [], []⟩

def Report.damaged (r : Report) : ℕ :=
  r.hashMismatch.length + r.sizeMismatch.length + r.rowsMismatch.length + r.unreadable.length
    + r.fetchFailed.length + r.missing.length + r.reverifyBad.length

def Report.ok (r : Report) : Bool := r.damaged == 0

inductive RestoreError where
  | refused
  | list (why : Text)
  | catalog (path : Path) (why : Text)

/-- The state of the loop over the parts. -/
structure Progress (β : Type) where
  files : List (Path × β)
  installed : List (Path × Text)
  derived : Derived
  report : Report

section

variable {β : Type} (reader : Reader β) (options : Options)

/-- A refused part goes into the list of its problem. -/
def Report.refuse (r : Report) (name : Text) (problem : Problem) : Report :=
  let r := { r with details := r.details ++ [(name, problem.text)] }
  match problem with
  | .hashMismatch _ => { r with hashMismatch := r.hashMismatch ++ [name] }
  | .sizeMismatch .. => { r with sizeMismatch := r.sizeMismatch ++ [name] }
  | .rowsMismatch .. => { r with rowsMismatch := r.rowsMismatch ++ [name] }
  | .unreadable _ | .decodedRowsMismatch .. => { r with unreadable := r.unreadable ++ [name] }

/-- Where a part is installed. -/
def destination (v : Verified) (name : Text) : Path := v.key.dir ++ [name]

def Progress.install (p : Progress β) (name : Text) (b : β) (v : Verified) : Progress β where
  files := Assoc.insert p.files (destination v name) b
  installed := p.installed ++ [(destination v name, name)]
  derived := p.derived.merge v.derived
  report := { p.report with
    restored := p.report.restored + 1
    rows := p.report.rows + v.rows
    bytes := p.report.bytes + v.bytes
    multiPartition := p.report.multiPartition + if v.multiPartition then 1 else 0 }

/-- One part of the listing. -/
def restorePart (source : PartSource β) (p : Progress β) (name : Text) : Progress β :=
  let expected := options.expected name
  let report :=
    if options.inventory.isSome && expected.isNone then
      { p.report with notInInventory := p.report.notInInventory ++ [name] }
    else p.report
  match source.fetch name with
  | .error .notFound =>
    { p with report := { report with
      details := report.details ++ [(name, "listed, then not found".toList)]
      missing := report.missing ++ [name] } }
  | .error (.other why) =>
    { p with report := { report with
      details := report.details ++ [(name, why)]
      fetchFailed := report.fetchFailed ++ [name] } }
  | .ok b =>
    match verifyPart reader options.tenancy b name expected with
    | .ok v => Progress.install { p with report := report } name b v
    | .error problem => { p with report := report.refuse name problem }

/-! ## The catalog -/

/-- `list_parquet_files`. -/
def listing (files : List (Path × β)) : List Path :=
  (files.map Prod.fst).insertionSort fun p q => (compare p q).isLE = true

/-- The files that are at a leaf of the tree, with their partitions. -/
def leaves (files : List (Path × β)) : List (Path × PartitionKey × β) :=
  (listing files).filterMap fun p => do
    let key ← keyOfPath p
    let b ← Assoc.get files p
    return (p, key, b)

/-- The row of a file, from its footer. -/
def fileRow (leaf : Path × PartitionKey × β) : Except RestoreError (Path × FileRow) :=
  match reader.footer leaf.2.2 with
  | .ok footer => .ok (leaf.1, ⟨leaf.2.1, footer.stats, reader.len leaf.2.2⟩)
  | .error why => .error (.catalog leaf.1 why)

/-- `Catalog::rebuild`. -/
def CatalogTables.rebuild (c : CatalogTables) (files : List (Path × β)) :
    Except RestoreError CatalogTables := do
  let entries ← (leaves files).mapM (fileRow reader)
  return { c with files := entries.foldl (fun table e => Assoc.insert table e.1 e.2) [] }

/-- `restore_templates`: the sightings replace the table. -/
def CatalogTables.restoreTemplates (c : CatalogTables) (templates : List Template)
    (shapes : List ShapeRow) (sightings : List (SightingKey × ℕ × ℤ × ℤ)) : CatalogTables where
  files := c.files
  templateServices := sightings.foldl Tally.record []
  tables := (c.tables.saveTemplates templates).registerShapes shapes

/-- The derived templates in the order of their ids, with counters of their own. -/
def Derived.numbered (d : Derived) : List (ℕ × ℕ × TemplateAcc) :=
  (Lists.sortByKey Prod.fst d.templates).zipIdx.map fun (e, i) => (i + 1, e)

def templateOf (e : ℕ × ℕ × TemplateAcc) : Template :=
  ⟨e.1, e.2.2.exemplar, e.2.2.count, e.2.2.firstSecs, e.2.2.lastSecs, e.2.1⟩

def shapeOf (e : ℕ × ℕ × TemplateAcc) : ShapeRow := ⟨e.2.1, e.2.1, (templateOf e).text⟩

/-! ## The whole restore -/

/-- The report before the first part. -/
def Report.start (names : List Text) (ignored : ℕ) : Report :=
  let missing := options.inventoried.filter fun n => !(names.contains n)
  { Report.zero with
    listed := names.length
    ignoredKeys := ignored
    inventory := options.inventory.map fun i => i.parts.length
    missing := missing
    details := missing.map fun n => (n, "in the inventory, not in the bucket".toList) }

/-- The installed files whose bytes do not hash to their names. -/
def rehash (files : List (Path × β)) (installed : List (Path × Text)) : List Text :=
  (installed.filter fun x => ((Assoc.get files x.1).map fun b =>
    simple (reader.sha256 b).1 ++ parquetSuffix) != some x.2).map Prod.snd

/-- The second pass over the installed files and the catalog. -/
def Report.reverify (r : Report) (bad : List Text) : Report :=
  let r := { r with reverifyBad := r.reverifyBad ++ bad }
  if r.catalogFiles ≠ r.restored ∨ r.catalogRows ≠ r.rows ∨ r.catalogBytes ≠ r.bytes then
    { r with
      reverifyBad := r.reverifyBad ++ ["catalog".toList]
      details := r.details ++ [("catalog".toList,
        "catalog has ".toList ++ Decimal.ofNat r.catalogFiles ++ " files, ".toList
          ++ Decimal.ofNat r.catalogRows ++ " rows, ".toList ++ Decimal.ofNat r.catalogBytes
          ++ " bytes; installed ".toList ++ Decimal.ofNat r.restored ++ ", ".toList
          ++ Decimal.ofNat r.rows ++ ", ".toList ++ Decimal.ofNat r.bytes)] }
  else r

/-- What a restore ends with. -/
structure Restored (β : Type) where
  report : Report
  installed : List (Path × Text)
  files : List (Path × β)
  catalog : CatalogTables

/-- `restore`. -/
def restore (source : PartSource β) (target : Target β) : Except RestoreError (Restored β) :=
  if !options.force && (target.catalog.isSome || !(listing target.files).isEmpty) then
    .error .refused
  else
    match source.list with
    | .error why => .error (.list why)
    | .ok (names, ignored) =>
      let p := names.foldl (restorePart reader options source)
        ⟨target.files, [], .empty, Report.start options names ignored⟩
      match (target.catalog.getD .empty).rebuild reader p.files with
      | .error e => .error e
      | .ok catalog =>
        let numbered := p.derived.numbered
        let catalog := catalog.restoreTemplates (numbered.map templateOf) (numbered.map shapeOf)
          p.derived.sightings
        let report := { p.report with
          rowsByTemplate := p.derived.rowsByTemplate
          templates := numbered.length
          templateServices := p.derived.sightings.length
          catalogFiles := catalog.files.length
          catalogRows := (catalog.files.map fun f => f.2.stats.rows).sum
          catalogBytes := (catalog.files.map fun f => f.2.bytes).sum }
        let report :=
          if options.reverify then report.reverify (rehash reader p.files p.installed) else report
        .ok ⟨report, p.installed, p.files, catalog⟩

end

end LogLess.Restore
