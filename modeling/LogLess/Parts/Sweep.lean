import LogLess.Parts.Local
import LogLess.Restore.Part
import LogLess.Serde
import LogLess.Store.Scan
import Mathlib.Data.Char
import Mathlib.Data.List.Lex
import Mathlib.Data.List.Sort
import Mathlib.Data.Prod.Lex

/-!
# The sweep of the parts

Nodes commit parts they uploaded and say when they dropped a local copy, which makes a part cold.
A sweep deletes the parts whose newest data is older than the retention of their tier, and a dry
run lists them.

Times are `u64` in a commit and in the clock, and signed integers in the catalog, where they are
compared.
-/

namespace LogLess.Parts

open Store (toI64)

/-- `saturating_mul` of `u64`. -/
def satMul (a b : ℕ) : ℕ := min (a * b) (2 ^ 64 - 1)

inductive Tier where
  | warm
  | cold
deriving DecidableEq

def Tier.text : Tier → Text
  | .warm => "warm".toList
  | .cold => "cold".toList

structure CommittedPart where
  name : Text
  size : ℕ
  sha256 : Text
  rows : ℕ
  minUnixNano : ℕ
  maxUnixNano : ℕ
  origin : Text
  node : Option Text

/-- A row of `peer_parts`. Its integers are signed. -/
structure PartRow where
  place : Place
  size : ℤ
  rows : ℤ
  minObserved : ℤ
  maxObserved : ℤ
  origin : Text
  committedMs : ℤ
  tier : Tier
  tierMs : ℤ
deriving DecidableEq

/-- A row of `peer_parts_audit`. -/
structure AuditRow where
  atMs : ℤ
  action : Text
  place : Place
  tier : Tier
  size : ℤ
  outcome : Text
  detail : Text
deriving DecidableEq

structure SweepConfig where
  maxPartBytes : ℕ
  warmRetentionSecs : ℕ
  coldRetentionSecs : ℕ

def SweepConfig.retention (c : SweepConfig) : Tier → ℕ
  | .warm => c.warmRetentionSecs
  | .cold => c.coldRetentionSecs

/-- Central's catalog of parts and the store that holds them. -/
structure Central where
  config : SweepConfig
  rows : List PartRow
  audit : List AuditRow
  /-- The stored parts, each with its size. -/
  objects : List (Place × ℕ)
  /-- The `max_unix_nano` that each row was committed with. -/
  committed : List (Place × ℕ)

/-- What becomes of the delete of a stored part. -/
inductive Deletion where
  | deleted
  /-- The file is gone, and the directory could not be synced. -/
  | unsynced (message : Text)
  | kept (message : Text)

/-- What a sweep meets: the catalog's reads and writes may fail, and deletes. -/
structure Weather where
  lists : Tier → Bool
  delete : Place → Deletion
  records : Place → Bool

structure SweepReport where
  dryRun : Bool
  deleted : ℕ
  failed : ℕ
  wouldDelete : ℕ
  truncated : Bool
  parts : List PartRow
deriving DecidableEq

/-- Parts a sweep acts on per tier. -/
def sweepBatch : ℕ := 1000

def isNodeChar (c : Char) : Bool := c.isAlphanum || c == '.' || c == '_' || c == '-'

def validNode (node : Text) : Bool :=
  1 ≤ Text.len node && Text.len node ≤ 64 && node.head? != some '.' && node.all isNodeChar

namespace Central

/-! ## Commits -/

def checkNode (node : Text) (claimed : Option Text) : Except (ℕ × String) Unit :=
  if !validNode node then .error (403, "bad_node")
  else if claimed.any fun c => c != node then .error (403, "foreign_prefix")
  else .ok ()

def checkPart (s : Central) (name : Text) (size : ℕ) (sha256 : Text) : Except (ℕ × String) Unit :=
  if !Restore.validName name then .error (422, "bad_name")
  else if name.take 64 ≠ sha256 then .error (422, "bad_hash")
  else if size = 0 ∨ s.config.maxPartBytes < size then .error (422, "bad_size")
  else .ok ()

/-- `record_peer_part`: a repeated commit is a no-op. -/
def recordPeerPart (s : Central) (node : Text) (part : CommittedPart) (committedMs : ℕ) :
    Central × Bool :=
  let place : Place := ⟨node, part.name⟩
  if s.rows.any fun r => r.place == place then (s, false)
  else
    ({ s with
       rows := s.rows ++ [
        { place := place
          size := toI64 part.size
          rows := toI64 part.rows
          minObserved := toI64 part.minUnixNano
          maxObserved := toI64 part.maxUnixNano
          origin := part.origin
          committedMs := toI64 committedMs
          tier := .warm
          tierMs := toI64 committedMs }]
       committed := Assoc.insert s.committed place part.maxUnixNano }, true)

/-- `commit`, with a catalog that can be written or not. -/
def commit (s : Central) (node : Text) (part : CommittedPart) (nowMs : ℕ) (writes : Bool) :
    Central × Except (ℕ × String) Bool :=
  match checkNode node part.node, s.checkPart part.name part.size part.sha256 with
  | .error e, _ => (s, .error e)
  | _, .error e => (s, .error e)
  | .ok (), .ok () =>
    if part.origin = [] ∨ 128 < Text.len part.origin ∨ part.maxUnixNano < part.minUnixNano then
      (s, .error (422, "bad_part"))
    else if Assoc.get s.objects ⟨node, part.name⟩ ≠ some part.size then
      (s, .error (409, "not_uploaded"))
    else if !writes then (s, .error (503, "catalog_busy"))
    else
      let (s, recorded) := s.recordPeerPart node part nowMs
      (s, .ok recorded)

/-- `mark_peer_part_cold`. -/
def markPeerPartCold (s : Central) (place : Place) (atMs : ℕ) : Central × Bool :=
  match s.rows.find? fun r => r.place == place && r.tier == .warm with
  | none => (s, false)
  | some row =>
    ({ s with
       rows := s.rows.map fun r =>
        if r.place = place then { r with tier := .cold, tierMs := toI64 atMs } else r
       audit := s.audit ++ [⟨toI64 atMs, "tier".toList, place, .cold, row.size, "ok".toList,
        "warm to cold: the node dropped its local copy".toList⟩] }, true)

/-- `retire`. -/
def retire (s : Central) (node name : Text) (claimed : Option Text) (nowMs : ℕ) (writes : Bool) :
    Central × Except (ℕ × String) Unit :=
  match checkNode node claimed with
  | .error e => (s, .error e)
  | .ok () =>
    if !Restore.validName name then (s, .error (422, "bad_name"))
    else if !writes then (s, .error (503, "catalog_busy"))
    else
      match s.markPeerPartCold ⟨node, name⟩ nowMs with
      | (s, true) => (s, .ok ())
      | (s, false) => (s, .error (404, "no_such_part"))

/-! ## The sweep -/

/-- The newest data of a part that is due is before this. -/
def cutoffNano (nowMs secs : ℕ) : ℕ := satMul (nowMs - satMul secs 1000) 1000000

/-- The order of `list_peer_parts`. -/
def listKey (r : PartRow) : ℤ ×ₗ Text ×ₗ Text :=
  toLex (r.maxObserved, toLex (r.place.node, r.place.name))

/-- `list_peer_parts` with the filter of the sweep, before its limit. -/
def listDue (s : Central) (tier : Tier) (cutoff : ℕ) : List PartRow :=
  (s.rows.filter fun r => r.tier == tier && r.maxObserved < toI64 cutoff).insertionSort
    fun a b => listKey a ≤ listKey b

/-- The parts of one tier that a sweep acts on. -/
def due (s : Central) (tier : Tier) (nowMs : ℕ) : List PartRow :=
  if s.config.retention tier = 0 then []
  else (s.listDue tier (cutoffNano nowMs (s.config.retention tier))).take sweepBatch

variable (w : Weather)

/-- `delete_object`: an error's text, or nothing, and the store after it. -/
def deleteObject (s : Central) (place : Place) : Central × Option Text :=
  if !validNode place.node || !Restore.validName place.name then
    (s, some
      "the catalogued node or name is not valid; refusing to build a key from it".toList)
  else
    match w.delete place with
    | .deleted => ({ s with objects := Assoc.erase s.objects place }, none)
    | .unsynced message => ({ s with objects := Assoc.erase s.objects place }, some message)
    | .kept message => (s, some message)

/-- `finish_peer_part_expiry`. -/
def finishExpiry (s : Central) (part : PartRow) (atMs : ℕ) (detail : Text) (deleted : Bool) :
    Central :=
  { s with
    rows := if deleted then s.rows.filter fun r => r.place != part.place else s.rows
    audit := s.audit ++ [⟨toI64 atMs, "expire".toList, part.place, part.tier, part.size,
      (if deleted then "deleted" else "delete_failed").toList, detail⟩] }

def detail (tier : Tier) (secs : ℕ) (part : PartRow) (cutoff : ℕ) : Text :=
  tier.text ++ " retention ".toList ++ Decimal.ofNat secs ++ "s: newest data ".toList
    ++ Decimal.ofNat (Store.asU64 part.maxObserved) ++ " ns is before ".toList
    ++ Decimal.ofNat cutoff ++ " ns".toList

/-- The real sweep of one part. Without a report the catalog could not be written. -/
def expire (nowMs : ℕ) (s : Central) (report : SweepReport) (part : PartRow) :
    Central × Option SweepReport :=
  let secs := s.config.retention part.tier
  let text := detail part.tier secs part (cutoffNano nowMs secs)
  let (s, failure) := s.deleteObject w part.place
  if !w.records part.place then (s, none)
  else
    match failure with
    | none =>
      (s.finishExpiry part nowMs text true,
        some { report with deleted := report.deleted + 1, parts := report.parts ++ [part] })
    | some m =>
      (s.finishExpiry part nowMs (text ++ "; ".toList ++ m) false,
        some { report with failed := report.failed + 1, parts := report.parts ++ [part] })

def expireAll (nowMs : ℕ) : Central → SweepReport → List PartRow → Central × Option SweepReport
  | s, report, [] => (s, some report)
  | s, report, part :: rest =>
    match expire w nowMs s report part with
    | (s, some report) => expireAll nowMs s report rest
    | (s, none) => (s, none)

/-- The sweep of one tier. -/
def sweepTier (nowMs : ℕ) (dryRun : Bool) (s : Central) (report : SweepReport) (tier : Tier) :
    Central × Option SweepReport :=
  if s.config.retention tier = 0 then (s, some report)
  else if !w.lists tier then (s, none)
  else
    let listed := (s.listDue tier (cutoffNano nowMs (s.config.retention tier))).take (sweepBatch + 1)
    let report := { report with truncated := report.truncated || sweepBatch < listed.length }
    let parts := listed.take sweepBatch
    if dryRun then
      (s, some { report with
        wouldDelete := report.wouldDelete + parts.length
        parts := report.parts ++ parts })
    else expireAll w nowMs s report parts

def sweep (s : Central) (nowMs : ℕ) (dryRun : Bool) : Central × Option SweepReport :=
  match s.sweepTier w nowMs dryRun ⟨dryRun, 0, 0, 0, false, []⟩ .warm with
  | (s, some report) => s.sweepTier w nowMs dryRun report .cold
  | (s, none) => (s, none)

end Central

/-! ## The request -/

/-- `u8::is_ascii_whitespace`. -/
def isAsciiWhitespace (b : UInt8) : Bool := b == 32 || b == 9 || b == 10 || b == 12 || b == 13

/-- The `Body` of the request: a missing field is true. -/
def readDryRun : Json.Value → Option Bool
  | .obj [] => some true
  | .obj [(key, v)] => if key = "dry_run".toList then Serde.readBool v else none
  | .arr [] => some true
  | .arr [v] => Serde.readBool v
  | _ => none

/-- `serde_json::from_slice::<Body>`. -/
def parseDryRun (body : List UInt8) : Option Bool :=
  (Utf8.strict body).bind fun text => (Json.parse text).bind readDryRun

/-- `dry_run` of a request, unless it is refused. `Body::default()` is false. -/
def requestDryRun (body : List UInt8) : Option Bool :=
  if body.all isAsciiWhitespace then some false else parseDryRun body

/-- `parts_sweep`, with the clock in seconds. Without a report the answer is an error. -/
def Central.partsSweep (w : Weather) (s : Central) (body : List UInt8) (clock : ℕ) :
    Central × Option SweepReport :=
  match requestDryRun body with
  | none => (s, none)
  | some dryRun => s.sweep w (satMul clock 1000) dryRun

end LogLess.Parts
