import LogLess.Policy.Impact
import LogLess.Policy.Journal

/-!
# The policy service

`put`, `restore` and `preview` of the admin API. A writer holds the scan gate from its start to its
answer, a preview while it looks, and a request that finds the gate taken waits, or is turned away
if it is a preview. A change writes `policy.json`, appends to the audit log, publishes to the live
handle and then to the state of the service; a crash may come between any two of these steps and
within an append. What the disk says of a document (the orphans and the preview) is an input of the
step that evaluates it.

The world keeps what landed, what was answered and what each start found.
-/

namespace LogLess.Policy

open Json Serde

/-! ## What runs -/

/-- The values of the policy handle. -/
structure Live where
  buckets : LevelBuckets
  diskBudgetBytes : ℕ
  watermarks : Relief.Watermarks
  pushdownEnabled : Bool
  pushdownTrigger : UInt8
  criticalTimeoutMs : ℕ
deriving DecidableEq

/-- What `PolicyHandle::new` and `apply` take from a document. -/
def Policies.live (p : Policies) : Except ConfigError Live := do
  let buckets ← p.buckets
  return {
    buckets := buckets
    diskBudgetBytes := p.storage.diskBudgetBytes
    watermarks := p.watermarks
    pushdownEnabled := p.pushdown.enabled
    pushdownTrigger := UInt8.ofNat p.pushdown.triggerSeverity
    criticalTimeoutMs := p.ingest.criticalEnqueueTimeoutMs }

/-- The state of the service. -/
structure State where
  version : ℕ
  updatedAtMs : ℕ
  updatedBy : Text
  overrides : List Text
  effective : Policies
deriving DecidableEq

/-- The state a service starts with. -/
def State.of (effective : Policies) : Option PolicyFile → State
  | some f => ⟨f.version, f.updatedAtMs, f.updatedBy, f.overrides, effective⟩
  | none => ⟨0, 0, "file".toList, [], effective⟩

/-! ## Answers -/

/-- `sources`: whether a leaf is from the file. -/
def sources (effective : Policies) (overrides : List Text) : List (Text × Text) :=
  effective.leaves.map fun (path, _) =>
    let runtime := overrides.contains path
      || ("retention[".toList.isPrefixOf path && overrides.contains "retention".toList)
    (path, if runtime then "runtime".toList else "file".toList)

/-- `pending_restart`: the restart-mode leaves that are not what the process started with. -/
def pendingRestart (effective running : Policies) : List Text :=
  (effective.leaves.filter fun (path, v) =>
    applyMode path = .restart ∧ Assoc.get running.leaves path ≠ some v).map Prod.fst

/-- `policies_json`. -/
structure PolicyView where
  version : ℕ
  updatedAtMs : ℕ
  updatedBy : Text
  effective : Policies
  sources : List (Text × Text)
  apply : List (Text × ApplyMode)
  pendingRestart : List Text
  running : List (Text × Option Leaf)

def State.view (s : State) (running : Policies) : PolicyView where
  version := s.version
  updatedAtMs := s.updatedAtMs
  updatedBy := s.updatedBy
  effective := s.effective
  sources := Policy.sources s.effective s.overrides
  apply := s.effective.leaves.map fun (path, _) => (path, applyMode path)
  pendingRestart := Policy.pendingRestart s.effective running
  running := (Policy.pendingRestart s.effective running).map fun path =>
    (path, Assoc.get running.leaves path)

inductive Body where
  | policies (view : PolicyView)
  | preview (problems : List Problem) (diff : List LeafChange) (preview : Option Preview)
  | error (code message : Text)
  | problems (problems : List Problem)
  | conflict (currentVersion : ℕ)
  | unconfirmed (code message : Text) (diff : List LeafChange) (preview : Preview)

structure Resp where
  status : ℕ
  body : Body

/-- `err`. -/
def err (status : ℕ) (code message : String) : Resp :=
  ⟨status, .error code.toList message.toList⟩

def problemsResp (problems : List Problem) : Resp := ⟨422, .problems problems⟩

def busy : Resp :=
  err 429 "busy" "another preview or policy write is scanning the store; retry in a moment"

def stale (currentVersion : ℕ) : Resp := ⟨409, .conflict currentVersion⟩

/-! ## Requests -/

/-- Why a body is not what it should be. -/
inductive BadBody where
  | data (why : Text)
  | syntactic (why : Text)

def BadBody.resp : BadBody → Resp
  | .data why => problemsResp [⟨"body".toList, why⟩]
  | .syntactic why => ⟨400, .error "bad_request".toList ("body is not valid JSON: ".toList ++ why)⟩

/-- A document that was read: its numbers are of 64 bits. -/
abbrev Proposal := {p : Policies // p.Fits}

structure WriteBody where
  policies : Proposal
  confirmDestructive : Bool
  impactToken : Option Text
  actor : Text

structure RestoreBody where
  version : ℕ
  confirmDestructive : Bool
  impactToken : Option Text
  actor : Text

inductive Request where
  | put (ifMatch : Option Text) (body : Except BadBody WriteBody)
  | restore (ifMatch : Option Text) (body : Except BadBody RestoreBody)
  | preview (body : Except BadBody Proposal)

/-- `parse_if_match`. -/
def parseIfMatch : Option Text → Except Resp ℕ
  | none => .error (err 400 "if_match_required" "send the policy version you read as If-Match")
  | some raw =>
    match Decimal.parse (Text.trimMatches (· == '"') (Text.trim raw)) with
    | some version => .ok version
    | none => .error (err 400 "bad_if_match" "If-Match must be the integer policy version")

/-- A request that was parsed. -/
inductive Job where
  | put (expected : ℕ) (body : WriteBody)
  | restore (expected : ℕ) (body : RestoreBody)
  | preview (policies : Proposal)

/-- The version a writer expects. -/
def Job.expected : Job → Option ℕ
  | .put expected _ => some expected
  | .restore expected _ => some expected
  | .preview _ => none

def Request.parse : Request → Except Resp Job
  | .put ifMatch body => do
    let expected ← parseIfMatch ifMatch
    match body with
    | .ok body => .ok (.put expected body)
    | .error bad => .error bad.resp
  | .restore ifMatch body => do
    let expected ← parseIfMatch ifMatch
    match body with
    | .ok body => .ok (.restore expected body)
    | .error bad => .error bad.resp
  | .preview body =>
    match body with
    | .ok policies => .ok (.preview policies)
    | .error bad => .error bad.resp

/-! ## Evaluation -/

/-- What the disk and the catalog say while a document is evaluated. -/
structure Scan where
  orphans : Except Text (List Problem)
  catalog : Except Text Unit
  preview : Except Text Preview

/-- `is_spoofing`. -/
def isSpoofing (c : Char) : Bool :=
  let n := c.toNat
  n == 0x061C || (0x200B ≤ n && n ≤ 0x200F) || (0x2028 ≤ n && n ≤ 0x202E)
    || (0x2060 ≤ n && n ≤ 0x2064) || (0x2066 ≤ n && n ≤ 0x206F) || n == 0xFEFF

/-- `char::is_control`. -/
def isControl (c : Char) : Bool := c.toNat < 0x20 || (0x7F ≤ c.toNat && c.toNat < 0xA0)

/-- `check_actor`. -/
def checkActor (actor : Text) : Option Problem :=
  if !(Text.trim actor).isEmpty && actor.len ≤ 128
      && !actor.any fun c => isControl c || isSpoofing c then none
  else some ⟨"actor".toList, ("must be 1 to 128 characters with no control, line-separator or " ++
    "bidirectional-formatting characters; it is written to the audit log").toList⟩

section

variable (fr : FracText) (debug : Text → Text) (defaults : Policies)

/-- `evaluate`. -/
def evaluate (scan : Scan) (proposed : Policies) : Except Resp Preview :=
  let failed (code : String) (why : Text) : Resp := ⟨500, .error code.toList why⟩
  match proposed.validate debug with
  | p :: ps => .error (problemsResp (p :: ps))
  | [] =>
    match scan.orphans with
    | .error why => .error (failed "preview_failed" why)
    | .ok (p :: ps) => .error (problemsResp (p :: ps))
    | .ok [] =>
      match scan.catalog with
      | .error why => .error (failed "catalog_unavailable" why)
      | .ok () =>
        match scan.preview with
        | .error why => .error (failed "preview_failed" why)
        | .ok preview => .ok preview

/-- `preview`, with the gate held. -/
def previewResp (scan : Scan) (current proposed : Policies) : Resp :=
  let diff := diff current proposed
  match evaluate debug scan proposed with
  | .ok p => ⟨200, .preview [] diff (some p)⟩
  | .error ⟨422, .problems ps⟩ => ⟨200, .preview ps diff none⟩
  | .error other => other

def summary (p : Preview) (confirm : Bool) : Value :=
  .obj [("confirmed_destructive".toList, .bool (p.destructive && confirm)),
    ("destructive".toList, .bool p.destructive),
    ("fraction_after".toList, .num (fr.write p.impact.disk.fractionAfter)),
    ("lossy_settings".toList, .arr (p.lossy.map fun l => .str l.path)),
    ("would_expire_bytes".toList, natValue p.impact.retention.wouldExpireBytes),
    ("would_expire_files".toList, natValue p.impact.retention.wouldExpireFiles),
    ("would_reclaim".toList, natValue p.impact.disk.wouldReclaim)]

/-- `apply`, up to what is to be written: an answer, or a file and its entry. -/
def change (st : State) (running : Policies) (scan : Scan) (tsMs expected : ℕ)
    (proposed : Policies) (confirm : Bool) (token : Option Text) (actor : Text) :
    Except Resp (PolicyFile × AuditEntry) :=
  match checkActor actor with
  | some p => .error (problemsResp [p])
  | none =>
    if st.version ≠ expected then .error (stale st.version)
    else
      match evaluate debug scan proposed with
      | .error resp => .error resp
      | .ok preview =>
        let diff := diff st.effective proposed
        if diff = [] then .error ⟨200, .policies (st.view running)⟩
        else if preview.destructive ∧ ¬ confirm then
          .error ⟨428, .unconfirmed "destructive_unconfirmed".toList
            ("applying this policy deletes data the current policy would keep, or loses data; " ++
              "resend with confirm_destructive: true and the impact_token of the preview you " ++
              "reviewed").toList diff preview⟩
        else if preview.destructive ∧ token ≠ some preview.impactToken then
          .error ⟨428, .unconfirmed "impact_changed".toList
            ("what this change would delete differs from the preview you confirmed (or no " ++
              "impact_token was sent); review the impact below and confirm again with its " ++
              "impact_token").toList diff preview⟩
        else if 2 ^ 64 ≤ st.version + 1 then
          .error (err 500 "version_exhausted"
            "the policy version counter is at its maximum; nothing was applied")
        else
          .ok
            ({ schemaVersion := policySchemaVersion
               version := st.version + 1
               updatedAtMs := tsMs
               updatedBy := actor
               overrides := overridesBetween defaults proposed
               document := proposed },
              { tsMs := tsMs
                actor := actor
                version := st.version + 1
                diff := diff.map (LeafChange.entry fr)
                impactSummary := summary fr preview confirm
                policies := proposed })

/-- What a writer proposes, and with what confirmation and actor. -/
def Job.proposed (log : List UInt8) : Job → Except Resp (Policies × Bool × Option Text × Text)
  | .put _ body =>
    .ok (body.policies.1, body.confirmDestructive, body.impactToken, body.actor)
  | .restore _ body =>
    match readAudit fr log with
    | none => .error (err 500 "audit_unreadable" "stream did not contain valid UTF-8")
    | some entries =>
      match entries.reverse.find? fun e => e.version == body.version with
      | some e => .ok (e.policies, body.confirmDestructive, body.impactToken, body.actor)
      | none => .error ⟨404, .error "unknown_version".toList
          ("no recorded policy version ".toList ++ Decimal.ofNat body.version
            ++ "; GET /admin/v1/policies/history lists them".toList)⟩
  | .preview policies => .ok (policies.1, false, none, [])

/-- `put`, `restore` and `preview` with the gate held, up to what is to be written. -/
def Job.decide (job : Job) (log : List UInt8) (st : State) (running : Policies) (scan : Scan)
    (tsMs : ℕ) : Except Resp (PolicyFile × AuditEntry) :=
  match job.expected with
  | none =>
    match job.proposed fr log with
    | .error resp => .error resp
    | .ok (proposed, _) => .error (previewResp debug scan st.effective proposed)
  | some expected =>
    match job.proposed fr log with
    | .error resp => .error resp
    | .ok (proposed, confirm, token, actor) =>
      change fr debug defaults st running scan tsMs expected proposed confirm token actor

/-! ## The world -/

/-- How far the request that holds the gate is. -/
inductive Stage where
  | begun
  | persist (file : PolicyFile) (entry : AuditEntry)
  | audit (file : PolicyFile) (entry : AuditEntry)
  | publish (file : PolicyFile)
  | answer (file : PolicyFile)

/-- Both files, the live handle and the state of the service. -/
structure Stores where
  file : Option PolicyFile
  log : List UInt8
  live : Live
  state : State

structure Turn where
  job : Job
  /-- What the stores were when the request took the gate. -/
  before : Stores
  stage : Stage

structure Process where
  state : State
  live : Live
  /-- The document the process started with. -/
  running : Policies
  turn : Option Turn

structure Answered where
  expected : Option ℕ
  resp : Resp
  /-- The file that was written for the request. -/
  applied : Option PolicyFile
  before : Stores
  after : Stores

/-- A start whose append to the log, if there was one, did not fail. -/
structure Started where
  file : Option PolicyFile
  log : List UInt8
  /-- The state of the new process and its handle. -/
  result : Option (State × Live)

structure World where
  file : Option PolicyFile
  log : List UInt8
  process : Option Process
  /-- Every file that was renamed into place, in order. -/
  landed : List PolicyFile
  answers : List Answered
  starts : List Started

inductive Event where
  | arrive (request : Request)
  | decide (scan : Scan) (tsMs : UInt64)
  /-- With the error that writing the file ends with, if it fails. -/
  | write (failure : Option Text)
  | append (append : Append)
  | publish
  | answer
  | crash
  | start (append : Append)

namespace World

/-- Nothing has run yet. -/
def fresh : World := ⟨none, [], none, [], [], []⟩

variable (w : World)

def stores (p : Process) : Stores := ⟨w.file, w.log, p.live, p.state⟩

/-- An answer to a request that did not take the gate. -/
def refuse (p : Process) (expected : Option ℕ) (resp : Resp) : World :=
  { w with answers := w.answers ++ [⟨expected, resp, none, w.stores p, w.stores p⟩] }

/-- The answer to the request that holds the gate, which it leaves. -/
def finish (p : Process) (t : Turn) (resp : Resp) (applied : Option PolicyFile) : World :=
  { w with
    process := some { p with turn := none }
    answers := w.answers ++ [⟨t.job.expected, resp, applied, t.before, w.stores p⟩] }

def hold (p : Process) (t : Turn) : World := { w with process := some { p with turn := some t } }

def arrive (request : Request) : World :=
  match w.process with
  | none => w
  | some p =>
    match request.parse with
    | .error resp => w.refuse p none resp
    | .ok job =>
      match p.turn with
      | none => w.hold p ⟨job, w.stores p, .begun⟩
      | some _ =>
        -- a writer waits, so it has not arrived yet
        if job.expected.isSome then w else w.refuse p none busy

def start (append : Append) : World :=
  match w.process with
  | some _ => w
  | none =>
    let (loaded, log) := loadEffective fr debug defaults w.file w.log append
    let failed (started : Bool) : World := { w with
      log := log
      starts := if started then w.starts ++ [⟨w.file, log, none⟩] else w.starts }
    match loaded, append with
    | .error _, .torn _ => failed false
    | .error _, .whole _ => failed true
    | .ok (effective, file), _ =>
      match effective.live with
      | .error _ => failed true
      | .ok live =>
        { w with
          log := log
          process := some ⟨State.of effective file, live, effective, none⟩
          starts := w.starts ++ [⟨w.file, log, some (State.of effective file, live)⟩] }

/-- One step of the request that holds the gate. -/
def advance (p : Process) (t : Turn) : Stage → Event → World
  | .begun, .decide scan tsMs =>
    match t.job.decide fr debug defaults w.log p.state p.running scan tsMs.toNat with
    | .error resp => w.finish p t resp none
    | .ok (file, entry) => w.hold p { t with stage := .persist file entry }
  | .persist file entry, .write none =>
    { w with file := some file, landed := w.landed ++ [file] }.hold p
      { t with stage := .audit file entry }
  | .persist _ _, .write (some why) =>
    w.finish p t ⟨500, .error "persist_failed".toList ("nothing was applied: ".toList ++ why)⟩ none
  | .audit file entry, .append append =>
    { w with log := appendAudit fr w.log entry append }.hold p { t with stage := .publish file }
  | .publish file, .publish =>
    let live := match file.document.live with
      | .ok live => live
      | .error _ => p.live
    w.hold { p with live := live } { t with stage := .answer file }
  | .answer file, .answer =>
    let st := State.of file.document (some file)
    w.finish { p with state := st } t ⟨200, .policies (st.view p.running)⟩ (some file)
  | _, _ => w

def step : Event → World
  | .arrive request => w.arrive request
  | .crash => { w with process := none }
  | .start append => w.start fr debug defaults append
  | e =>
    match w.process with
    | none => w
    | some p =>
      match p.turn with
      | none => w
      | some t => w.advance fr debug defaults p t t.stage e

end World

end

end LogLess.Policy
