import LogLess.Lib.Float64
import LogLess.Relief.Retention

/-!
# The disk budget

Under pressure files are deleted ahead of their retention, those of the cheapest bucket
first and the oldest of a bucket first, until what is used is down to the reclaim target.
What is used is measured by the catalog: the bytes of its rows, with those of the WAL.

The three fractions are finite floats, so rational numbers; what is computed with them is
rounded as an `f64` is.
-/

namespace LogLess.Relief

/-! ## Usage -/

structure Watermarks where
  high : ℚ
  critical : ℚ
  reclaimTarget : ℚ
deriving DecidableEq

inductive Pressure where
  | normal
  | high
  | critical
deriving DecidableEq

structure DiskUsage where
  walBytes : ℕ
  storeBytes : ℕ
  budgetBytes : ℕ
deriving DecidableEq

namespace DiskUsage

def used (u : DiskUsage) : ℕ := u.walBytes + u.storeBytes

def fraction (u : DiskUsage) : ℚ :=
  if u.budgetBytes = 0 then 0 else Float64.ratio u.used u.budgetBytes

def pressure (u : DiskUsage) (wm : Watermarks) : Pressure :=
  if wm.critical ≤ u.fraction then .critical
  else if wm.high ≤ u.fraction then .high
  else .normal

/-- `(budget as f64 * reclaim_target) as u64`. -/
def target (u : DiskUsage) (wm : Watermarks) : ℕ :=
  min (2 ^ 64 - 1) ⌊Float64.nearest (Float64.nearest u.budgetBytes * wm.reclaimTarget)⌋.toNat

end DiskUsage

/-! ## Choosing what to delete -/

/-- A row of the catalog's table of files. -/
structure FileEntry where
  path : Path
  key : PartitionKey
  rows : ℕ
  bytes : ℕ
  minTsNanos : ℤ
deriving DecidableEq

structure ReclaimReport where
  filesDropped : List Path
  partitionsTouched : List PartitionKey
  bytesReclaimed : ℕ
  rowsLost : ℕ
  /-- There was nothing more to delete before the target was reached. -/
  exhausted : Bool
  pinnedKept : ℕ
deriving DecidableEq

def ReclaimReport.default : ReclaimReport := ⟨[], [], 0, 0, false, 0⟩

/-- What a bucket keeps, in seconds; one that is not configured is spent last. -/
def retentionSecs (tenancy : Tenancy) (f : FileEntry) : ℕ :=
  (((tenancy.buckets f.key.tenant f.key.index).bind fun b => b.byName f.key.bucket).map
    fun b => b.retention / 10 ^ 9).getD (2 ^ 64 - 1)

/-- Cheapest bucket first, then oldest data, then the path. -/
def reclaimLe (tenancy : Tenancy) (a b : FileEntry) : Bool :=
  ((compare (retentionSecs tenancy a) (retentionSecs tenancy b)).then <|
    (compare a.minTsNanos b.minTsNanos).then <| compare a.path b.path).isLE

section

variable {σ : Type} (store : Path) (target : ℕ) (delete : Path → σ → Bool × σ)

/-- The loop of `reclaim_files`: the rows whose files it deletes, and what it then takes to
be used. -/
def reclaimLoop : List FileEntry → ℕ → σ → List FileEntry × ℕ × σ
  | [], used, st => ([], used, st)
  | f :: files, used, st =>
    if used ≤ target then ([], used, st)
    -- never outside the store, whatever the catalog says
    else if ¬ store.isPrefixOf f.path then reclaimLoop files used st
    else
      match delete f.path st with
      | (false, st) => reclaimLoop files used st
      | (true, st) =>
        let (dropped, used, st) := reclaimLoop files (used - f.bytes) st
        (f :: dropped, used, st)

/-- `reclaim_files`, with the deletion and the state it acts on. -/
def reclaimFiles (files : List FileEntry) (tenancy : Tenancy) (usage : DiskUsage)
    (wm : Watermarks) (st : σ) : ReclaimReport × σ :=
  let target := usage.target wm
  if usage.used ≤ target then (.default, st)
  else
    let sorted := files.insertionSort fun a b => reclaimLe tenancy a b = true
    let (dropped, used, st) := reclaimLoop store target delete sorted usage.used st
    ({ filesDropped := dropped.map FileEntry.path
       partitionsTouched :=
        (dropped.map FileEntry.key).dedup.insertionSort fun a b => a.le b = true
       bytesReclaimed := (dropped.map FileEntry.bytes).sum
       rowsLost := (dropped.map FileEntry.rows).sum
       exhausted := target < used
       pinnedKept := 0 }, st)

end

/-- `fs::remove_file`: it fails where there is no file. -/
def removeFile (stuck : Path → Bool) (path : Path) (fs : Fs) : Bool × Fs :=
  if (fs.size path).isSome && !stuck path then (true, fs.apply (.file path)) else (false, fs)

/-- `reclaim_pinned`, up to the rows it forgets: the files it deletes are never pinned. -/
def reclaimPinned (store : Path) (stuck : Path → Bool) (pins : List Path) (catalog : List FileEntry)
    (tenancy : Tenancy) (usage : DiskUsage) (wm : Watermarks) (fs : Fs) : ReclaimReport × Fs :=
  let (pinned, files) := catalog.partition fun f => pins.contains f.path
  let (report, fs) := reclaimFiles store (removeFile stuck) files tenancy usage wm fs
  ({ report with pinnedKept := pinned.length }, fs)

/-! ## The pass -/

/-- The store, its catalog, and the bytes of the two WAL directories. -/
structure Disk where
  fs : Fs
  catalog : List FileEntry
  walBytes : ℕ
deriving DecidableEq

inductive Effect where
  /-- A removal by retention. -/
  | remove (r : Removal)
  /-- `forget_missing_in`: one transaction. -/
  | forgetIn (keys : List PartitionKey)
  /-- A file deleted by the reclaim loop. -/
  | reclaim (path : Path)
  /-- `forget_files`: one transaction. -/
  | forget (paths : List Path)
deriving DecidableEq

/-- `files_in_partition`: every writer's files. -/
def FileEntry.isIn (f : FileEntry) (key : PartitionKey) : Bool :=
  f.key.tenant == key.tenant && f.key.index == key.index && f.key.epochHour == key.epochHour
    && f.key.bucket == key.bucket

namespace Disk

def apply (d : Disk) : Effect → Disk
  | .remove r => { d with fs := d.fs.apply r }
  | .forgetIn keys =>
    let gone := (d.catalog.filter fun f => keys.any f.isIn && (d.fs.size f.path).isNone).map
      FileEntry.path
    { d with catalog := d.catalog.filter fun f => !gone.contains f.path }
  | .reclaim path => { d with fs := d.fs.apply (.file path) }
  | .forget paths => { d with catalog := d.catalog.filter fun f => !paths.contains f.path }

def applyAll (d : Disk) (es : List Effect) : Disk := es.foldl apply d

/-- `DiskUsage::measure`. -/
def measure (d : Disk) (budgetBytes : ℕ) : DiskUsage :=
  ⟨d.walBytes, (d.catalog.map FileEntry.bytes).sum, budgetBytes⟩

end Disk

/-- What a pass is called with, and what the file system and the catalog do in it. -/
structure Pass where
  tenancy : Tenancy
  budgetBytes : ℕ
  wm : Watermarks
  now : ℕ
  pinned : List Path
  /-- The paths that cannot be removed. -/
  stuck : Path → Bool
  /-- The two transactions of the pass fail. -/
  catalogFails : Bool

namespace Pass

variable (store : Path) (p : Pass) (d : Disk)

def sweep : Sweep := enforcePinned p.stuck p.pinned p.tenancy p.now false store d.fs

/-- Retention, and the rows of the expired partitions forgotten. -/
def expiry : List Effect :=
  let sw := p.sweep store d
  sw.removals.map .remove ++
    if sw.report.expired = [] ∨ p.catalogFails = true then []
    else [.forgetIn (sw.report.expired.map Expired.key)]

/-- The disk when its usage is measured. -/
def measured : Disk := d.applyAll (p.expiry store d)

def usage : DiskUsage := (p.measured store d).measure p.budgetBytes

/-- `none` when the pressure is normal and nothing is attempted. -/
def reclaim : Option ReclaimReport :=
  let d := p.measured store d
  let usage := d.measure p.budgetBytes
  if usage.pressure p.wm = .normal then none
  else some (reclaimPinned store p.stuck p.pinned d.catalog p.tenancy usage p.wm d.fs).1

/-- Pressure relief, and the rows of the deleted files forgotten. -/
def relief : List Effect :=
  match p.reclaim store d with
  | none => []
  | some r =>
    r.filesDropped.map .reclaim ++
      if r.filesDropped = [] ∨ p.catalogFails = true then [] else [.forget r.filesDropped]

/-- `expire_and_relieve`: what it does to the disk, in order. -/
def effects : List Effect := p.expiry store d ++ p.relief store d

end Pass

/-- `PassOutcome`, but for what the pass gave up of unconfirmed files. -/
structure PassOutcome where
  expiry : RetentionReport
  usage : DiskUsage
  pressure : Pressure
  reclaim : Option ReclaimReport

def expireAndRelieve (store : Path) (p : Pass) (d : Disk) : PassOutcome × Disk :=
  (⟨(p.sweep store d).report, p.usage store d, (p.usage store d).pressure p.wm,
    p.reclaim store d⟩, d.applyAll (p.effects store d))

end LogLess.Relief
