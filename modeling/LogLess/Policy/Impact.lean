import LogLess.Lib.Utf8
import LogLess.Policy.Document
import LogLess.Store.Catalog

/-!
# What a policy would delete

A preview plans a pass under the current document and one under the proposed document, with
the functions that a pass runs: retention as a dry run over the store, then the reclaim
ordering over the catalog. What the second plan deletes and the first does not is hashed to
the token that a confirmation must carry.

A plan names directories and files. It is made without pins, and as if every deletion
succeeded.
-/

namespace LogLess.Policy

open Relief

/-! ## A plan -/

structure Plan where
  expired : List Expired
  /-- The number of expired files of each bucket. -/
  expiredFiles : List (Text × ℕ)
  reclaim : ReclaimReport
  usedBefore : ℕ
  budget : ℕ
  /-- Level directories and reclaimed files. -/
  doomed : List Path

/-- A deletion that always succeeds. -/
def deleteAlways (_ : Path) (st : Unit) : Bool × Unit := (true, st)

/-- The rows that are not in an expired directory. -/
def remaining (catalog : List FileEntry) (expired : List Expired) : List FileEntry :=
  catalog.filter fun f => !expired.any fun e => e.path.isPrefixOf f.path

/-- The plan of a pass under a tenancy, a budget and watermarks. -/
def planWith (store : Path) (tenancy : Tenancy) (budget : ℕ) (wm : Watermarks) (now : ℕ)
    (d : Disk) : Plan :=
  let expired := (enforce tenancy now true store d.fs).report.expired
  let remaining := remaining d.catalog expired
  let usageAfter : DiskUsage := ⟨d.walBytes, (remaining.map FileEntry.bytes).sum, budget⟩
  let reclaim :=
    if usageAfter.pressure wm = .normal then .default
    else (reclaimFiles store deleteAlways remaining tenancy usageAfter wm ()).1
  { expired := expired
    expiredFiles := expired.foldl (fun counts e =>
      Assoc.insert counts e.key.bucket
        ((Assoc.get counts e.key.bucket).getD 0 + (d.fs.under e.path).length)) []
    reclaim := reclaim
    usedBefore := d.walBytes + (d.catalog.map FileEntry.bytes).sum
    budget := budget
    doomed := expired.map Expired.path ++ reclaim.filesDropped }

/-- `plan`, for a store and the tenancy of the configuration file. -/
def plan (store : Path) (base : Tenancy) (d : Disk) (policies : Policies) (now : ℕ) :
    Except ConfigError Plan := do
  let tenancy ← policies.tenancyUnder base
  return planWith store tenancy policies.storage.diskBudgetBytes policies.watermarks now d

/-! ## Its impact -/

structure BucketImpact where
  name : Text
  files : ℕ
  bytes : ℕ
deriving DecidableEq

structure RetentionImpact where
  wouldExpireFiles : ℕ
  wouldExpireBytes : ℕ
  perBucket : List BucketImpact
deriving DecidableEq

structure DiskImpact where
  usedBytes : ℕ
  budgetBytes : ℕ
  fractionAfter : ℚ
  wouldReclaim : ℕ
deriving DecidableEq

structure Impact where
  retention : RetentionImpact
  disk : DiskImpact
deriving DecidableEq

namespace Plan

def impact (p : Plan) (policies : Policies) : Impact :=
  let retentionBytes := (p.expired.map Expired.bytes).sum
  let wouldReclaim := retentionBytes + p.reclaim.bytesReclaimed
  let after := p.usedBefore - wouldReclaim
  { retention :=
      { wouldExpireFiles := (p.expiredFiles.map Prod.snd).sum
        wouldExpireBytes := retentionBytes
        perBucket := policies.retention.map fun r =>
          ⟨r.name, (Assoc.get p.expiredFiles r.name).getD 0,
            ((p.expired.filter fun e => e.key.bucket == r.name).map Expired.bytes).sum⟩ }
    disk :=
      ⟨p.usedBefore, p.budget, if p.budget = 0 then 0 else Float64.ratio after p.budget,
        wouldReclaim⟩ }

/-- Paths this plan deletes that the baseline would not, sorted. -/
def beyond (p baseline : Plan) : List Path :=
  (p.doomed.dedup.filter fun q => !baseline.doomed.any fun a => a.isPrefixOf q).insertionSort
    fun a b => (compare a b).isLE = true

end Plan

/-! ## A preview -/

structure Preview where
  impact : Impact
  /-- The proposed document deletes something the current one would not, or loses data. -/
  destructive : Bool
  lossy : List Problem
  impactToken : Text
deriving DecidableEq

/-- The bytes of an absolute path. -/
def pathBytes (p : Path) : List UInt8 := Utf8.encode (p.flatMap fun c => '/' :: c)

/-- What is hashed: the paths newly deleted and the settings that lose data. -/
def tokenInput (beyond : List Path) (lossy : List Problem) : List UInt8 :=
  beyond.flatMap (fun p => pathBytes p ++ [0])
    ++ lossy.flatMap fun l => Utf8.encode l.path ++ [1]

/-- The first sixteen bytes of the hash in hex. -/
def tokenOf (sha256 : List UInt8 → List UInt8) (input : List UInt8) : Text :=
  Store.simple ((sha256 input).take 16)

def preview (sha256 : List UInt8 → List UInt8) (store : Path) (base : Tenancy) (d : Disk)
    (current proposed : Policies) (now : ℕ) : Except ConfigError Preview := do
  let baseline ← plan store base d current now
  let next ← plan store base d proposed now
  let beyond := next.beyond baseline
  let lossy := lossySettings current proposed
  return {
    impact := next.impact proposed
    destructive := !beyond.isEmpty || !lossy.isEmpty
    lossy := lossy
    impactToken := tokenOf sha256 (tokenInput beyond lossy) }

/-- What `apply` asks of a change: one that is destructive must be confirmed with the token
of what it would do now. -/
def Preview.confirmed (p : Preview) (confirm : Bool) (token : Option Text) : Bool :=
  !p.destructive || confirm && token == some p.impactToken

end LogLess.Policy
