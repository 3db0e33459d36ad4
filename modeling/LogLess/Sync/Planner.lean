import LogLess.Lib.Assoc
import LogLess.Lib.Frames
import LogLess.Lib.Utf8
import LogLess.Store.DictionaryRuns

/-!
# What is sent to a peer

The planner sends errors in full and of the rest the percentage that is set. What it leaves
out is counted: once a minute a rollup record for each service, template and class goes out.
When it notices an anomaly it sends the records of the last minute that were left out, and
the service in full for a while. A template that was never seen is an anomaly of its own.

What watches rates and signals computes with floating point numbers and is a parameter here:
`Detectors`, with a state that nothing else reads.
-/

namespace LogLess.Sync

def fullFrom : UInt8 := 17
def attrSupplement : Text := "logless.supplement".toList
def boostMs : ℕ := 5 * 60000
def lookbackMs : ℕ := 60000
def ringMax : ℕ := 20000
def noveltyWarmupMs : ℕ := 60000
def seenMax : ℕ := 200000
def anomalyLog : ℕ := 20
def anomalyQuietMs : ℕ := 30000
def rollupWindowMs : ℕ := 60000
def rollupGraceMs : ℕ := 5000

/-- `select`: the same id always answers the same. -/
def select (eventId : Uuid) (fidelity : UInt8) : Bool :=
  if 100 ≤ fidelity then true
  else if fidelity = 0 then false
  else
    let h := (eventId.bytes.drop 8).foldl (fun h byte => (h ^^^ byte.toUInt64) * 0x100000001b3)
      (0xcbf29ce484222325 : UInt64)
    h % 100 < fidelity.toUInt64

structure PlannerConfig where
  fidelity : UInt8
  minSeverity : UInt8
  anomalyBoost : Bool

/-- What the rates and the signals find. -/
inductive Signal where
  | rate
  | templateRate
  | silence
  | newPair
  | errorShare
  | paramDrift
  | flow
deriving DecidableEq

inductive AnomalyKind where
  | novel
  | signal (s : Signal)
deriving DecidableEq

/-- `as_str` of the kind. -/
def AnomalyKind.text : AnomalyKind → Text
  | .novel => "novel".toList
  | .signal .rate => "rate".toList
  | .signal .templateRate => "template_rate".toList
  | .signal .silence => "silence".toList
  | .signal .newPair => "new_pair".toList
  | .signal .errorShare => "error_share".toList
  | .signal .paramDrift => "param_drift".toList
  | .signal .flow => "flow".toList

structure Finding where
  service : Option Text
  signal : Signal
  detail : Text
  boost : Bool

/-- `Signals` and the rate buckets: what a record shows, and what the buckets show that have
ended. -/
structure Detectors (σ : Type) where
  observe : σ → ℕ → LogRecord → Bool → List Finding × σ
  close : σ → ℕ → List Finding × σ

structure Anomaly where
  atMs : ℕ
  service : Option Text
  kind : AnomalyKind
  detail : Text
  lookbackRecords : ℕ
deriving DecidableEq

/-- What goes to the peer: a record, or the marker record of an anomaly. -/
inductive Sent where
  | record (r : LogRecord)
  | marker (a : Anomaly)
deriving DecidableEq

structure RollupKey where
  minuteStartMs : ℕ
  service : Option Text
  templateId : ℕ
  levelClass : LevelClass
deriving DecidableEq

structure RollupAcc where
  count : ℕ
  firstNs : ℕ
  lastNs : ℕ
  maxSeverity : UInt8

structure PlannerStats where
  sampledOut : ℕ
  rollupsEmitted : ℕ
  lookbackSent : ℕ
  boostsStarted : ℕ

structure Planner (σ : Type) where
  instanceId : Text
  cfg : PlannerConfig
  boosts : List (Option Text × ℕ)
  ring : List (ℕ × LogRecord)
  rollups : List (RollupKey × RollupAcc)
  seen : List ℕ
  learnUntilMs : ℕ
  signals : σ
  anomalies : List Anomaly
  lastAnomaly : List ((Option Text × AnomalyKind) × ℕ)
  stats : PlannerStats

/-! ## Rollups -/

/-- The names that `LevelClass::as_str` gives. -/
def className : LevelClass → Text
  | .debug => "debug".toList
  | .info => "info".toList
  | .warnPlus => "warn_plus".toList

/-- `u64::to_le_bytes`. -/
def le64 (n : ℕ) : List UInt8 := Frames.le32 n ++ Frames.le32 (n / 2 ^ 32)

/-- The bytes that the id of a rollup is the hash of. -/
def rollupInput (instanceId : Text) (key : RollupKey) : List UInt8 :=
  Utf8.encode instanceId ++ le64 key.minuteStartMs ++ Utf8.encode (key.service.getD [])
    ++ le64 key.templateId ++ Utf8.encode (className key.levelClass)

/-- The first half of a SHA-256. -/
def firstSixteen (digest : ByteArr 32) : Uuid :=
  ⟨digest.1.take 16, by rw [List.length_take, digest.2]; rfl⟩

/-- A counter as an attribute: `i64::try_from`, and the largest one if that fails. -/
def countAttr (key : String) (v : ℕ) : Attr := ⟨key.toList, .i64 (min v (2 ^ 63 - 1) : ℕ)⟩

def rollupRecord (sha256 : List UInt8 → ByteArr 32) (instanceId : Text) (key : RollupKey)
    (acc : RollupAcc) : LogRecord :=
  let ns := key.minuteStartMs * 1000000
  let body := Decimal.ofNat acc.count ++ " similar records were left out of sync (".toList
    ++ className key.levelClass ++ [')']
  { LogRecord.new (firstSixteen (sha256 (rollupInput instanceId key))) ns ⟨acc.maxSeverity⟩ body with
    severityText := some "rollup".toList
    service := key.service
    templateId := if key.templateId ≠ 0 then some key.templateId else none
    attributes :=
      [⟨"logless.rollup".toList, .bool true⟩, countAttr "logless.rollup.count" acc.count,
        countAttr "logless.rollup.window_ms" rollupWindowMs,
        ⟨"logless.rollup.class".toList, .str (className key.levelClass)⟩,
        countAttr "logless.rollup.first_ns" acc.firstNs,
        countAttr "logless.rollup.last_ns" acc.lastNs] }

/-! ## The planner -/

namespace Planner

variable {σ : Type}

/-- `new`, with the ids that are not novel. -/
def new (instanceId : Text) (cfg : PlannerConfig) (nowMs : ℕ) (knownTemplates : List ℕ)
    (signals : σ) : Planner σ where
  instanceId := instanceId
  cfg := cfg
  boosts := []
  ring := []
  rollups := []
  seen := knownTemplates.take seenMax
  learnUntilMs := if knownTemplates.isEmpty then nowMs + noveltyWarmupMs else nowMs
  signals := signals
  anomalies := []
  lastAnomaly := []
  stats := ⟨0, 0, 0, 0⟩

/-- Sent at the current dial, whatever is boosted. -/
def sentLive (p : Planner σ) (record : LogRecord) : Bool :=
  fullFrom ≤ record.severity.num || select record.eventId p.cfg.fidelity

def pruneRing (p : Planner σ) (nowMs : ℕ) : Planner σ :=
  { p with ring := p.ring.dropWhile fun (at_, _) => lookbackMs < nowMs - at_ }

/-- A record that goes into a rollup, and into the ring. -/
def leaveOut (p : Planner σ) (record : LogRecord) (nowMs : ℕ) : Planner σ :=
  let minute := record.observedUnixNano / 1000000 / rollupWindowMs * rollupWindowMs
  let key : RollupKey :=
    ⟨minute, record.service, record.templateId.getD 0, record.severity.class⟩
  let acc := (Assoc.get p.rollups key).getD
    ⟨0, record.observedUnixNano, record.observedUnixNano, record.severity.num⟩
  let acc : RollupAcc :=
    { count := acc.count + 1
      firstNs := min acc.firstNs record.observedUnixNano
      lastNs := max acc.lastNs record.observedUnixNano
      maxSeverity := max acc.maxSeverity record.severity.num }
  let ring := p.ring ++ [(nowMs, record)]
  { p with
    stats := { p.stats with sampledOut := p.stats.sampledOut + 1 }
    rollups := Assoc.insert p.rollups key acc
    ring := if p.cfg.anomalyBoost then ring.drop (ring.length - ringMax) else p.ring }

/-- The flag of a record that is extra detail. -/
def supplement (how : Text) (r : LogRecord) : LogRecord :=
  { r with attributes := r.attributes ++ [⟨attrSupplement, .str how⟩] }

/-- `trigger`: notes an anomaly, and with `boost` sends the lead-up and boosts the service. -/
def trigger (p : Planner σ) (service : Option Text) (kind : AnomalyKind) (detail : Text)
    (boost : Bool) (nowMs : ℕ) : Planner σ × List Sent :=
  let until_ := (Assoc.get p.boosts service).getD 0
  let newlyBoosted := boost && until_ ≤ nowMs
  let boosts :=
    if boost then Assoc.insert p.boosts service (max until_ (nowMs + boostMs)) else p.boosts
  let quiet := (Assoc.get p.lastAnomaly (service, kind)).any fun at_ => nowMs - at_ < anomalyQuietMs
  if quiet && !newlyBoosted then ({ p with boosts := boosts }, [])
  else
    let p := p.pruneRing nowMs
    let isLead (x : ℕ × LogRecord) : Bool := boost && x.2.service == service
    let lead := (p.ring.filter isLead).map fun x =>
      supplement ("lookback:".toList ++ kind.text) x.2
    let anomaly : Anomaly := ⟨nowMs, service, kind, detail, lead.length⟩
    let anomalies := p.anomalies ++ [anomaly]
    ({ p with
       boosts := boosts
       lastAnomaly := Assoc.insert p.lastAnomaly (service, kind) nowMs
       ring := p.ring.filter fun x => !isLead x
       anomalies := anomalies.drop (anomalies.length - anomalyLog)
       stats := { p.stats with
         boostsStarted := p.stats.boostsStarted + if newlyBoosted then 1 else 0
         lookbackSent := p.stats.lookbackSent + lead.length } },
      .marker anomaly :: lead.map Sent.record)

/-- Findings, one after another. -/
def findings (nowMs : ℕ) : Planner σ → List Finding → Planner σ × List Sent
  | p, [] => (p, [])
  | p, f :: fs =>
    let (p, out) := p.trigger f.service (.signal f.signal) f.detail f.boost nowMs
    let (p, more) := findings nowMs p fs
    (p, out ++ more)

/-- A template that was never seen is remembered, and an anomaly once the planner has learned. -/
def notice (p : Planner σ) (record : LogRecord) (nowMs : ℕ) : Planner σ × List Sent × Bool :=
  match record.templateId with
  | none => (p, [], false)
  | some template =>
    if template ∈ p.seen then (p, [], false)
    else
      let p := if p.seen.length < seenMax then { p with seen := p.seen ++ [template] } else p
      if p.learnUntilMs ≤ nowMs then
        let detail := "a log shape never seen before (template ".toList ++ Decimal.ofNat template
          ++ [')']
        let (p, out) := p.trigger record.service .novel detail true nowMs
        (p, out, true)
      else (p, [], true)

variable (detect : Detectors σ)

/-- The anomalies that a record shows. -/
def watch (p : Planner σ) (nowMs : ℕ) (record : LogRecord) : Planner σ × List Sent :=
  if p.cfg.anomalyBoost then
    let (p, novel, firstEver) := p.notice record nowMs
    let (found, signals) := detect.observe p.signals nowMs record firstEver
    let (p, more) := findings nowMs { p with signals := signals } found
    (p, novel ++ more)
  else (p, [])

/-- One record of `process`. -/
def processOne (p : Planner σ) (nowMs : ℕ) (record : LogRecord) : Planner σ × List Sent :=
  if record.severity.num < p.cfg.minSeverity then (p, [])
  else
    let (p, out) := p.watch detect nowMs record
    let boosted := (Assoc.get p.boosts record.service).any fun until_ => nowMs < until_
    if p.sentLive record || boosted then (p, out ++ [.record record])
    else (p.leaveOut record nowMs, out)

/-- `process`: what is sent now, in order, for a batch. -/
def process (nowMs : ℕ) : Planner σ → List LogRecord → Planner σ × List Sent
  | p, [] => (p, [])
  | p, record :: batch =>
    let (p, out) := p.processOne detect nowMs record
    let (p, more) := process nowMs p batch
    (p, out ++ more)

variable (sha256 : List UInt8 → ByteArr 32)

/-- `tick`: the rollups of the minutes that have ended, or all of them. -/
def tick (p : Planner σ) (nowMs : ℕ) (force : Bool) : Planner σ × List Sent :=
  let (p, out) :=
    if p.cfg.anomalyBoost then
      let (found, signals) := detect.close p.signals nowMs
      findings nowMs { p with signals := signals } found
    else (p, [])
  let p := p.pruneRing nowMs
  let isDue (e : RollupKey × RollupAcc) : Bool :=
    force || e.1.minuteStartMs + rollupWindowMs + rollupGraceMs ≤ nowMs
  let due := p.rollups.filter isDue
  ({ p with
     rollups := p.rollups.filter fun e => !isDue e
     stats := { p.stats with rollupsEmitted := p.stats.rollupsEmitted + due.length } },
    out ++ due.map fun e => .record (rollupRecord sha256 p.instanceId e.1 e.2))

end Planner

/-! ## The ids of rollups -/

/-- The times and ids of a key are `u64`. -/
structure RollupKey.Fits (k : RollupKey) : Prop where
  minute : k.minuteStartMs < 2 ^ 64
  template : k.templateId < 2 ^ 64

theorem length_le64 (n : ℕ) : (le64 n).length = 8 := rfl

theorem le64_inj {m n : ℕ} (hm : m < 2 ^ 64) (hn : n < 2 ^ 64) : le64 m = le64 n ↔ m = n := by
  refine ⟨fun h => ?_, fun h => by rw [h]⟩
  obtain ⟨hlow, hhigh⟩ := List.append_inj h rfl
  have hlow' := congrArg Frames.ofLe32 hlow
  have hhigh' := congrArg Frames.ofLe32 hhigh
  have hread : ∀ k, Frames.ofLe32 (Frames.le32 k) = k % 2 ^ 32 := by
    intro k
    have h := Frames.ofLe32_le32_append k []
    rwa [List.append_nil] at h
  rw [hread, hread] at hlow' hhigh'
  omega

theorem encode_inj {a b : Text} : Utf8.encode a = Utf8.encode b ↔ a = b := by
  refine ⟨fun h => ?_, fun h => by rw [h]⟩
  rw [← Utf8.lossy_encode a, h, Utf8.lossy_encode]

/-- The last byte of a class tells it from the others. -/
theorem className_inj {a b : LevelClass} {l m : List UInt8}
    (h : l ++ Utf8.encode (className a) = m ++ Utf8.encode (className b)) : a = b := by
  have hsome : ∀ c, ((Utf8.encode (className c)).getLast?).isSome = true := by
    intro c
    cases c <;> decide
  have hlast := congrArg List.getLast? h
  rw [List.getLast?_append, List.getLast?_append, Option.or_of_isSome (hsome a),
    Option.or_of_isSome (hsome b)] at hlast
  clear h
  revert hlast
  cases a <;> cases b <;> decide

/-- What the hashed bytes tell: all of a key but whether it has no service or the empty one. -/
theorem rollupInput_eq_iff (instanceId : Text) {a b : RollupKey} (ha : a.Fits) (hb : b.Fits) :
    rollupInput instanceId a = rollupInput instanceId b ↔
      a.minuteStartMs = b.minuteStartMs ∧ a.service.getD [] = b.service.getD [] ∧
        a.templateId = b.templateId ∧ a.levelClass = b.levelClass := by
  constructor
  · intro h
    have hclass := className_inj h
    unfold rollupInput at h
    rw [hclass] at h
    obtain ⟨h, htemplate⟩ := List.append_inj' (List.append_cancel_right h)
      (by rw [length_le64, length_le64])
    rw [List.append_assoc, List.append_assoc] at h
    obtain ⟨hminute, hservice⟩ := List.append_inj (List.append_cancel_left h)
      (by rw [length_le64, length_le64])
    exact ⟨(le64_inj ha.minute hb.minute).mp hminute, encode_inj.mp hservice,
      (le64_inj ha.template hb.template).mp htemplate, hclass⟩
  · rintro ⟨hminute, hservice, htemplate, hclass⟩
    rw [rollupInput, rollupInput, hminute, hservice, htemplate, hclass]

/-- The keys are those of one minute, template and class, one with no service and the other
with the empty one. -/
def RollupKey.emptyService (a b : RollupKey) : Bool :=
  a.minuteStartMs == b.minuteStartMs && a.templateId == b.templateId && a.levelClass == b.levelClass
    && a.service.getD [] == [] && b.service.getD [] == []

/-- Rollups of one key have one id, and keys that differ are hashed from different bytes, unless
one has no service and the other the empty one. -/
theorem rollup_ids_iff (sha256 : List UInt8 → ByteArr 32) (instanceId : Text) {a b : RollupKey}
    (ha : a.Fits) (hb : b.Fits) (hne : a ≠ b) :
    (∀ acc acc', (rollupRecord sha256 instanceId a acc).eventId
        = (rollupRecord sha256 instanceId a acc').eventId) ∧
      (rollupInput instanceId a ≠ rollupInput instanceId b ↔ a.emptyService b = false) := by
  refine ⟨fun _ _ => rfl, ?_⟩
  rw [Ne, rollupInput_eq_iff instanceId ha hb, ← Bool.not_eq_true, not_iff_not]
  obtain ⟨minute, service, template, cls⟩ := a
  obtain ⟨minute', service', template', cls'⟩ := b
  simp only [RollupKey.emptyService, Bool.and_eq_true, beq_iff_eq]
  constructor
  · rintro ⟨rfl, hservice, rfl, rfl⟩
    refine ⟨⟨⟨⟨rfl, rfl⟩, rfl⟩, ?_⟩, ?_⟩
    all_goals
      cases service <;> cases service' <;> simp_all
  · rintro ⟨⟨⟨⟨rfl, rfl⟩, rfl⟩, hempty⟩, hempty'⟩
    exact ⟨rfl, hempty.trans hempty'.symm, rfl, rfl⟩

/-- Two keys of one minute: no service, and one called "api". -/
theorem rollup_ids_api :
    let none_ : RollupKey := ⟨60000, none, 7, .info⟩
    let api : RollupKey := ⟨60000, some "api".toList, 7, .info⟩
    rollupInput "edge-1".toList none_ ≠ rollupInput "edge-1".toList api := by
  intro none_ api
  have hids := rollup_ids_iff (fun _ => ⟨List.replicate 32 0, List.length_replicate⟩)
    "edge-1".toList (a := none_) (b := api) ⟨by decide, by decide⟩ ⟨by decide, by decide⟩ (by decide)
  exact hids.2.mpr (by decide)

/-- No service and the empty service are hashed from the same bytes. -/
theorem empty_service_is_none :
    let none_ : RollupKey := ⟨60000, none, 7, .info⟩
    let empty : RollupKey := ⟨60000, some [], 7, .info⟩
    none_ ≠ empty ∧ rollupInput "edge-1".toList none_ = rollupInput "edge-1".toList empty := by
  decide

/-! ## A restart -/

inductive PlannerEvent where
  | process (nowMs : ℕ) (batch : List LogRecord)
  | tick (nowMs : ℕ) (force : Bool)
  | setConfig (cfg : PlannerConfig)

namespace Planner

variable {σ : Type} (detect : Detectors σ) (sha256 : List UInt8 → ByteArr 32)

def step (p : Planner σ) : PlannerEvent → Planner σ
  | .process nowMs batch => (p.process detect nowMs batch).1
  | .tick nowMs force => (p.tick detect sha256 nowMs force).1
  | .setConfig cfg => { p with cfg := cfg }

/-- The planner that a process starts with: the ids of the templates in the catalog are not
novel. -/
def atStart (v : Store.Volume) (instanceId : Text) (cfg : PlannerConfig) (nowMs : ℕ) (signals : σ) :
    Planner σ :=
  .new instanceId cfg nowMs (v.tables.loadTemplates.map Template.id) signals

/-- The catalog lists this template for this service. -/
def Listed (v : Store.Volume) (service : Option Text) (id : ℕ) : Prop :=
  ∃ tenant index, (tenant, index, id, service) ∈ v.disk.catalog.templateServices.map Prod.fst

/-- Whatever came before, no record of a template that the catalog lists for its service is
noticed as novel. -/
def Quiet (v : Store.Volume) (p : Planner σ) : Prop :=
  ∀ es nowMs (record : LogRecord) id, record.templateId = some id → Listed v record.service id →
    ∀ a, .marker a ∈ ((Runs.run (step detect sha256) p es).process detect nowMs [record]).2 →
      a.kind ≠ .novel

variable {detect sha256} {p : Planner σ} {nowMs x : ℕ}

theorem seen_trigger (p : Planner σ) (service : Option Text) (kind : AnomalyKind) (detail : Text)
    (boost : Bool) (nowMs : ℕ) : (p.trigger service kind detail boost nowMs).1.seen = p.seen := by
  unfold trigger
  simp only
  split <;> rfl

theorem marker_trigger {service : Option Text} {kind : AnomalyKind} {detail : Text} {boost : Bool}
    {a : Anomaly} (h : .marker a ∈ (p.trigger service kind detail boost nowMs).2) :
    a.kind = kind := by
  unfold trigger at h
  simp only at h
  split at h
  · cases h
  · rcases List.mem_cons.mp h with h | h
    · rw [Sent.marker.inj h]
    · obtain ⟨r, -, hr⟩ := List.mem_map.mp h
      cases hr

theorem seen_findings (p : Planner σ) (nowMs : ℕ) (fs : List Finding) :
    (findings nowMs p fs).1.seen = p.seen := by
  induction fs generalizing p with
  | nil => rfl
  | cons f fs ih => exact (ih _).trans (seen_trigger ..)

theorem marker_findings {fs : List Finding} {a : Anomaly}
    (h : .marker a ∈ (findings nowMs p fs).2) : a.kind ≠ .novel := by
  induction fs generalizing p with
  | nil => cases h
  | cons f fs ih =>
    rcases List.mem_append.mp h with h | h
    · rw [marker_trigger h]
      exact AnomalyKind.noConfusion
    · exact ih h

/-- What a new template leaves of the planner when the set is not full. -/
theorem notice_new {record : LogRecord} (hid : record.templateId = some x) (hnew : x ∉ p.seen) :
    ∃ q : Planner σ, (q.seen = p.seen ∨ q.seen = p.seen ++ [x]) ∧
      q.lastAnomaly = p.lastAnomaly ∧
      p.notice record nowMs =
        if p.learnUntilMs ≤ nowMs then
          let detail := "a log shape never seen before (template ".toList ++ Decimal.ofNat x ++ [')']
          let r := q.trigger record.service .novel detail true nowMs
          (r.1, r.2, true)
        else (q, [], true) := by
  by_cases hfull : p.seen.length < seenMax
  · refine ⟨{ p with seen := p.seen ++ [x] }, .inr rfl, rfl, ?_⟩
    simp only [notice, hid, if_neg hnew, if_pos hfull]
  · refine ⟨p, .inl rfl, rfl, ?_⟩
    simp only [notice, hid, if_neg hnew, if_neg hfull]

/-- What was seen stays seen. -/
theorem mem_seen_notice (h : x ∈ p.seen) (record : LogRecord) :
    x ∈ (p.notice record nowMs).1.seen := by
  cases hid : record.templateId with
  | none =>
    rw [notice, hid]
    exact h
  | some template =>
    by_cases hseen : template ∈ p.seen
    · simp only [notice, hid, if_pos hseen]
      exact h
    · obtain ⟨q, hq, -, hnotice⟩ := @notice_new _ p nowMs _ _ hid hseen
      have hkept : x ∈ q.seen := by
        rcases hq with hq | hq
        · rw [hq]
          exact h
        · rw [hq]
          exact List.mem_append_left _ h
      rw [hnotice]
      split
      · simp only [seen_trigger]
        exact hkept
      · exact hkept

theorem mem_seen_watch (h : x ∈ p.seen) (record : LogRecord) :
    x ∈ (p.watch detect nowMs record).1.seen := by
  unfold watch
  split
  · simp only [seen_findings]
    exact mem_seen_notice h record
  · exact h

theorem mem_seen_processOne (h : x ∈ p.seen) (record : LogRecord) :
    x ∈ (p.processOne detect nowMs record).1.seen := by
  have hwatched : x ∈ (p.watch detect nowMs record).1.seen := mem_seen_watch h record
  unfold processOne
  split
  · exact h
  · simp only
    split <;> exact hwatched

theorem mem_seen_process (h : x ∈ p.seen) (batch : List LogRecord) :
    x ∈ (p.process detect nowMs batch).1.seen := by
  induction batch generalizing p with
  | nil => exact h
  | cons record batch ih => exact ih (mem_seen_processOne h record)

theorem mem_seen_step (p : Planner σ) (e : PlannerEvent) (h : x ∈ p.seen) :
    x ∈ (p.step detect sha256 e).seen := by
  cases e with
  | process nowMs batch => exact mem_seen_process h batch
  | setConfig cfg => exact h
  | tick nowMs force =>
    simp only [step, tick, pruneRing]
    split
    · simp only [seen_findings]
      exact h
    · exact h

/-- A record of a template that was seen is not noticed. -/
theorem marker_watch {record : LogRecord} {a : Anomaly} (hid : record.templateId = some x)
    (hseen : x ∈ p.seen) (h : .marker a ∈ (p.watch detect nowMs record).2) : a.kind ≠ .novel := by
  have hnotice : p.notice record nowMs = (p, [], false) := by
    rw [notice, hid]
    exact if_pos hseen
  unfold watch at h
  split at h
  · simp only [hnotice, List.nil_append] at h
    exact marker_findings h
  · cases h

/-- The markers of a batch of one record are those that watching it sends. -/
theorem marker_process {record : LogRecord} {a : Anomaly} :
    .marker a ∈ (p.process detect nowMs [record]).2 ↔
      ¬ record.severity.num < p.cfg.minSeverity ∧ .marker a ∈ (p.watch detect nowMs record).2 := by
  simp only [process, List.append_nil]
  unfold processOne
  split
  · next hbelow => simp [hbelow]
  · next habove =>
    simp only
    split <;> simp [habove]

/-- A listed template that is not among the known ones is novel, at the latest when the planner
has learned. -/
theorem not_quiet {v : Store.Volume} {instanceId : Text} {cfg : PlannerConfig} {signals : σ}
    {service : Option Text} (hlisted : Listed v service x)
    (hnew : x ∉ (v.tables.loadTemplates.map Template.id).take seenMax) :
    ¬ Quiet detect sha256 v (atStart v instanceId cfg nowMs signals) := by
  intro h
  let record : LogRecord :=
    { LogRecord.new ⟨List.replicate 16 0, List.length_replicate⟩ 0 ⟨255⟩ [] with
      service := service
      templateId := some x }
  let p : Planner σ := { atStart v instanceId cfg nowMs signals with cfg := ⟨100, 0, true⟩ }
  have hlearned : p.learnUntilMs ≤ nowMs + noveltyWarmupMs := by
    simp only [p, atStart, new]
    split <;> omega
  have hquiet := h [.setConfig ⟨100, 0, true⟩] (nowMs + noveltyWarmupMs) record x rfl hlisted
  have hrun : Runs.run (step detect sha256) (atStart v instanceId cfg nowMs signals)
      [.setConfig ⟨100, 0, true⟩] = p := rfl
  rw [hrun] at hquiet
  -- the first anomaly of a service is not too soon after another one
  have hnotice : ∃ a, .marker a ∈ (p.notice record (nowMs + noveltyWarmupMs)).2.1 ∧
      a.kind = .novel := by
    have hfirst : ∀ q : Planner σ, q.lastAnomaly = [] → ∀ detail,
        ∃ a, .marker a ∈ (q.trigger service .novel detail true (nowMs + noveltyWarmupMs)).2 ∧
          a.kind = .novel := by
      intro q hq detail
      unfold trigger
      simp only [hq, Assoc.get_nil, Option.any_none, Bool.false_and, Bool.false_eq_true, if_false]
      exact ⟨_, List.mem_cons_self, rfl⟩
    have hunseen : x ∉ p.seen := hnew
    have hid : record.templateId = some x := rfl
    obtain ⟨q, -, hlast, hq⟩ := @notice_new _ p (nowMs + noveltyWarmupMs) _ _ hid hunseen
    rw [hq, if_pos hlearned]
    exact hfirst q hlast _
  obtain ⟨a, ha, hkind⟩ := hnotice
  refine hquiet a (marker_process.mpr ⟨?_, ?_⟩) hkind
  · simp only [p, record, LogRecord.new]
    decide
  · unfold watch
    rw [if_pos rfl]
    exact List.mem_append_left _ ha

/-- A restart notices no listed template as novel exactly if the content hash of each is one of
the counters in the templates table. -/
theorem quiet_atStart_iff (detect : Detectors σ) (sha256 : List UInt8 → ByteArr 32)
    (v : Store.Volume) (instanceId : Text) (cfg : PlannerConfig) (nowMs : ℕ) (signals : σ) :
    Quiet detect sha256 v (atStart v instanceId cfg nowMs signals) ↔
      ∀ key ∈ v.disk.catalog.templateServices.map Prod.fst,
        key.2.2.1 ∈ (v.tables.loadTemplates.map Template.id).take seenMax := by
  constructor
  · rintro h ⟨tenant, index, id, service⟩ hkey
    by_contra hnew
    exact not_quiet ⟨tenant, index, hkey⟩ hnew h
  · rintro h es now record id hid ⟨tenant, index, hkey⟩ a ha
    have hstart : id ∈ (atStart v instanceId cfg nowMs signals).seen := h _ hkey
    have hseen : id ∈
        (Runs.run (step detect sha256) (atStart v instanceId cfg nowMs signals) es).seen :=
      @Runs.run_invariant _ _ (step detect sha256) (fun p => id ∈ p.seen)
        (fun p e hp => mem_seen_step p e hp) _ hstart es
    exact marker_watch hid hseen (marker_process.mp ha).2

/-- After one merge the template of the line has counter 1, and its records carry a hash. -/
theorem restart_not_quiet :
    let i := Store.Instance.exampleRun [.process (Store.Instance.exampleLine "a") 0,
      .segment .main (Store.Instance.exampleSegment 1 0 "a"), .merge Store.Instance.examplePass]
    i.volume.tables.loadTemplates.map Template.id = [1] ∧
      Listed i.volume none (fingerprintOf ['a']) ∧
      ¬ Quiet (σ := Unit) ⟨fun _ _ _ _ => ([], ()), fun _ _ => ([], ())⟩
        (fun _ => ⟨List.replicate 32 0, List.length_replicate⟩) i.volume
        (atStart i.volume "edge-1".toList ⟨10, 0, true⟩ 0 ()) := by
  intro i
  have hids : i.volume.tables.loadTemplates.map Template.id = [1] := by decide +kernel
  have hlisted : Listed i.volume none (fingerprintOf ['a']) :=
    ⟨"default".toList, "default".toList, by decide +kernel⟩
  refine ⟨hids, hlisted, not_quiet hlisted ?_⟩
  rw [hids]
  decide +kernel

end Planner

end LogLess.Sync
