import LogLess.Policy.Overrides
import LogLess.Serde

/-!
# The policy document and the audit log as JSON

`to_vec` and `from_str` on a document and on an entry of the audit log, as their derived
implementations have it. `readEntry_entryToValue`: what is written is read back, except that its
fractions are as the library reads them, and what is read has numbers of 64 bits.
-/

namespace LogLess.Policy

open Json Serde

/-! ## JSON -/

/-- The decimal text of finite fractions. What is written is a number and can be read, but it may
be read as another fraction. -/
structure FracText where
  write : ℚ → Text
  read : Text → Option ℚ
  isNumber_write : ∀ q, isNumber (write q) = true
  isSome_read_write : ∀ q, (read (write q)).isSome = true

/-- What becomes of a fraction that is written and read. -/
def FracText.reread (fr : FracText) (q : ℚ) : ℚ := (fr.read (fr.write q)).getD q

/-- A document with every fraction as it is read back. -/
def Policies.reread (fr : FracText) (p : Policies) : Policies :=
  { p with
    storage.highWater := fr.reread p.storage.highWater
    storage.criticalWater := fr.reread p.storage.criticalWater
    storage.reclaimTarget := fr.reread p.storage.reclaimTarget }

/-- Numbers are of 64 bits. -/
structure Policies.Fits (p : Policies) : Prop where
  retention : ∀ r ∈ p.retention, r.minSeverity < 2 ^ 64 ∧ r.retentionSecs < 2 ^ 64
  budget : p.storage.diskBudgetBytes < 2 ^ 64
  timeout : p.ingest.criticalEnqueueTimeoutMs < 2 ^ 64
  capacity : p.ingest.queueCapacity < 2 ^ 64
  trigger : p.pushdown.triggerSeverity < 2 ^ 64

/-- The fields of a struct that denies others. -/
def strictFields (names : List Text) : Value → Option (List (Text × Value))
  | .obj ms => if ms.all fun m => names.contains m.1 then structFields names (.obj ms) else none
  | v => structFields names v

section

variable (fr : FracText)

def ruleFields : List Text := ["name", "min_severity", "retention_secs"].map String.toList
def storageFields : List Text :=
  ["disk_budget_bytes", "high_water", "critical_water", "reclaim_target"].map String.toList
def ingestFields : List Text :=
  ["critical_enqueue_timeout_ms", "queue_capacity"].map String.toList
def pushdownFields : List Text := ["enabled", "trigger_severity"].map String.toList
def policiesFields : List Text :=
  ["retention", "storage", "ingest", "pushdown"].map String.toList

def ruleToValue (r : RetentionRule) : Value :=
  .obj (ruleFields.zip [.str r.name, natValue r.minSeverity, natValue r.retentionSecs])

def policiesToValue (p : Policies) : Value :=
  .obj (policiesFields.zip [.arr (p.retention.map ruleToValue),
    .obj (storageFields.zip [natValue p.storage.diskBudgetBytes,
      .num (fr.write p.storage.highWater), .num (fr.write p.storage.criticalWater),
      .num (fr.write p.storage.reclaimTarget)]),
    .obj (ingestFields.zip [natValue p.ingest.criticalEnqueueTimeoutMs,
      natValue p.ingest.queueCapacity]),
    .obj (pushdownFields.zip [.bool p.pushdown.enabled, natValue p.pushdown.triggerSeverity])])

def readRule (v : Value) : Option RetentionRule := do
  let fields ← strictFields ruleFields v
  let name ← field fields "name" readStr
  let minSeverity ← field fields "min_severity" (readNat (2 ^ 64))
  let retentionSecs ← field fields "retention_secs" (readNat (2 ^ 64))
  return ⟨name, minSeverity, retentionSecs⟩

def readRules : Value → Option (List RetentionRule)
  | .arr vs => vs.mapM readRule
  | _ => none

def readFrac : Value → Option ℚ
  | .num lexeme => fr.read lexeme
  | _ => none

def readStorage (v : Value) : Option StoragePolicy := do
  let fields ← strictFields storageFields v
  let diskBudgetBytes ← field fields "disk_budget_bytes" (readNat (2 ^ 64))
  let highWater ← field fields "high_water" (readFrac fr)
  let criticalWater ← field fields "critical_water" (readFrac fr)
  let reclaimTarget ← field fields "reclaim_target" (readFrac fr)
  return ⟨diskBudgetBytes, highWater, criticalWater, reclaimTarget⟩

def readIngest (v : Value) : Option IngestPolicy := do
  let fields ← strictFields ingestFields v
  let timeout ← field fields "critical_enqueue_timeout_ms" (readNat (2 ^ 64))
  let capacity ← field fields "queue_capacity" (readNat (2 ^ 64))
  return ⟨timeout, capacity⟩

def readPushdown (v : Value) : Option PushdownPolicy := do
  let fields ← strictFields pushdownFields v
  let enabled ← field fields "enabled" readBool
  let trigger ← field fields "trigger_severity" (readNat (2 ^ 64))
  return ⟨enabled, trigger⟩

def readPolicies (v : Value) : Option Policies := do
  let fields ← strictFields policiesFields v
  let retention ← field fields "retention" readRules
  let storage ← field fields "storage" (readStorage fr)
  let ingest ← field fields "ingest" readIngest
  let pushdown ← field fields "pushdown" readPushdown
  return ⟨retention, storage, ingest, pushdown⟩

end

/-! ## Entries of the audit log -/

def Leaf.toValue (fr : FracText) : Leaf → Value
  | .bool b => .bool b
  | .nat n => natValue n
  | .frac q => .num (fr.write q)
  | .text t => .str t

/-- A changed leaf, null where a document does not have it. -/
structure DiffEntry where
  path : Text
  before : Value
  after : Value
  apply : ApplyMode

/-- One line of the log. -/
structure AuditEntry where
  tsMs : ℕ
  actor : Text
  version : ℕ
  diff : List DiffEntry
  impactSummary : Value
  /-- What the version applied, and a restore applies again. -/
  policies : Policies

section

variable (fr : FracText)

def LeafChange.entry (c : LeafChange) : DiffEntry :=
  ⟨c.path, optValue (Leaf.toValue fr) c.before, optValue (Leaf.toValue fr) c.after, c.apply⟩

def diffFields : List Text := ["path", "from", "to", "apply"].map String.toList
def entryFields : List Text :=
  ["ts_ms", "actor", "version", "diff", "impact_summary", "policies"].map String.toList

def ApplyMode.name : ApplyMode → Text
  | .hot => "hot".toList
  | .restart => "restart".toList

def diffToValue (d : DiffEntry) : Value :=
  .obj (diffFields.zip [.str d.path, d.before, d.after, .str d.apply.name])

def entryToValue (e : AuditEntry) : Value :=
  .obj (entryFields.zip [natValue e.tsMs, .str e.actor, natValue e.version,
    .arr (e.diff.map diffToValue), e.impactSummary, policiesToValue fr e.policies])

def readApply : Value → Option ApplyMode
  | .str s =>
    if s = ApplyMode.hot.name then some .hot
    else if s = ApplyMode.restart.name then some .restart
    else none
  | _ => none

def readDiff (v : Value) : Option DiffEntry := do
  let fields ← structFields diffFields v
  let path ← field fields "path" readStr
  let before ← field fields "from" some
  let after ← field fields "to" some
  let apply ← field fields "apply" readApply
  return ⟨path, before, after, apply⟩

def readDiffs : Value → Option (List DiffEntry)
  | .arr vs => vs.mapM readDiff
  | _ => none

def readEntry (v : Value) : Option AuditEntry := do
  let fields ← structFields entryFields v
  let tsMs ← field fields "ts_ms" (readNat (2 ^ 64))
  let actor ← field fields "actor" readStr
  let version ← field fields "version" (readNat (2 ^ 64))
  let diff ← field fields "diff" readDiffs
  let impactSummary ← field fields "impact_summary" some
  let policies ← field fields "policies" (readPolicies fr)
  return ⟨tsMs, actor, version, diff, impactSummary, policies⟩

end

/-! ## What is read back -/

theorem structFields_zip {names : List Text} (hnames : names.Nodup) {vs : List Value}
    (h : names.length = vs.length) :
    structFields names (.obj (names.zip vs)) = some (names.zip vs) :=
  structFields_obj hnames (List.map_fst_zip h.le)

theorem strictFields_zip {names : List Text} (hnames : names.Nodup) {vs : List Value}
    (h : names.length = vs.length) :
    strictFields names (.obj (names.zip vs)) = some (names.zip vs) := by
  have hall : ((names.zip vs).all fun m => names.contains m.1) = true := by
    rw [List.all_eq_true]
    intro m hm
    rw [List.contains_iff_mem]
    exact (List.of_mem_zip hm).1
  rw [strictFields, if_pos hall, structFields_zip hnames h]

/-- No object has a field twice. -/
theorem fields_nodup : (ruleFields.Nodup ∧ storageFields.Nodup ∧ ingestFields.Nodup ∧
    pushdownFields.Nodup ∧ policiesFields.Nodup) ∧ diffFields.Nodup ∧ entryFields.Nodup := by
  decide +kernel

variable {fr : FracText}

theorem readRule_ruleToValue {r : RetentionRule}
    (h : r.minSeverity < 2 ^ 64 ∧ r.retentionSecs < 2 ^ 64) :
    readRule (ruleToValue r) = some r := by
  have hnodup := fields_nodup.1.1
  rw [readRule, ruleToValue, strictFields_zip hnodup rfl]
  show (readNat (2 ^ 64) (natValue r.minSeverity)).bind (fun m =>
    (readNat (2 ^ 64) (natValue r.retentionSecs)).bind fun s => some (RetentionRule.mk r.name m s))
      = _
  rw [readNat_natValue h.1, readNat_natValue h.2]
  rfl

theorem readFrac_write (q : ℚ) : readFrac fr (.num (fr.write q)) = some (fr.reread q) := by
  obtain ⟨x, hx⟩ := Option.isSome_iff_exists.mp (fr.isSome_read_write q)
  rw [readFrac, hx, FracText.reread, hx]
  rfl

theorem readStorage_value {p : StoragePolicy} (h : p.diskBudgetBytes < 2 ^ 64) :
    readStorage fr (.obj (storageFields.zip [natValue p.diskBudgetBytes,
        .num (fr.write p.highWater), .num (fr.write p.criticalWater),
        .num (fr.write p.reclaimTarget)]))
      = some ⟨p.diskBudgetBytes, fr.reread p.highWater, fr.reread p.criticalWater,
        fr.reread p.reclaimTarget⟩ := by
  have hnodup := fields_nodup.1.2.1
  rw [readStorage, strictFields_zip hnodup rfl]
  show (readNat (2 ^ 64) (natValue p.diskBudgetBytes)).bind (fun b =>
    (readFrac fr (.num (fr.write p.highWater))).bind fun hw =>
      (readFrac fr (.num (fr.write p.criticalWater))).bind fun cw =>
        (readFrac fr (.num (fr.write p.reclaimTarget))).bind fun rt =>
          some (StoragePolicy.mk b hw cw rt)) = _
  rw [readNat_natValue h, readFrac_write, readFrac_write, readFrac_write]
  rfl

theorem readIngest_value {p : IngestPolicy} (h : p.criticalEnqueueTimeoutMs < 2 ^ 64)
    (h' : p.queueCapacity < 2 ^ 64) :
    readIngest (.obj (ingestFields.zip [natValue p.criticalEnqueueTimeoutMs,
      natValue p.queueCapacity])) = some p := by
  have hnodup := fields_nodup.1.2.2.1
  rw [readIngest, strictFields_zip hnodup rfl]
  show (readNat (2 ^ 64) (natValue p.criticalEnqueueTimeoutMs)).bind (fun t =>
    (readNat (2 ^ 64) (natValue p.queueCapacity)).bind fun c => some (IngestPolicy.mk t c)) = _
  rw [readNat_natValue h, readNat_natValue h']
  rfl

theorem readPushdown_value {p : PushdownPolicy} (h : p.triggerSeverity < 2 ^ 64) :
    readPushdown (.obj (pushdownFields.zip [.bool p.enabled, natValue p.triggerSeverity]))
      = some p := by
  have hnodup := fields_nodup.1.2.2.2.1
  rw [readPushdown, strictFields_zip hnodup rfl]
  show (readNat (2 ^ 64) (natValue p.triggerSeverity)).bind (fun t =>
    some (PushdownPolicy.mk p.enabled t)) = _
  rw [readNat_natValue h]
  rfl

/-- A document comes back with its fractions as they are read. -/
theorem readPolicies_policiesToValue {p : Policies} (h : p.Fits) :
    readPolicies fr (policiesToValue fr p) = some (p.reread fr) := by
  have hrules : readRules (.arr (p.retention.map ruleToValue)) = some p.retention :=
    Lists.mapM_map_of_mem fun r hr => readRule_ruleToValue (h.retention r hr)
  have hstorage := @readStorage_value fr p.storage h.budget
  have hingest := readIngest_value h.timeout h.capacity
  have hpushdown := readPushdown_value h.trigger
  have hnodup := fields_nodup.1.2.2.2.2
  rw [readPolicies, policiesToValue, strictFields_zip hnodup rfl]
  simp only [Option.bind_eq_bind, Option.bind_some]
  generalize hms : policiesFields.zip _ = ms
  have hr : field ms "retention" readRules = some p.retention := by
    rw [← hms]
    exact hrules
  have hs : field ms "storage" (readStorage fr) = some (p.reread fr).storage := by
    rw [← hms]
    exact hstorage
  have hi : field ms "ingest" readIngest = some p.ingest := by
    rw [← hms]
    exact hingest
  have hd : field ms "pushdown" readPushdown = some p.pushdown := by
    rw [← hms]
    exact hpushdown
  rw [hr, hs, hi, hd]
  rfl

/-- Values of the entry can be written, and its numbers are of 64 bits. -/
structure AuditEntry.Writable (e : AuditEntry) : Prop where
  tsMs : e.tsMs < 2 ^ 64
  version : e.version < 2 ^ 64
  policies : e.policies.Fits
  diff : ∀ d ∈ e.diff, d.before.valid = true ∧ d.after.valid = true
  impactSummary : e.impactSummary.valid = true

def AuditEntry.reread (fr : FracText) (e : AuditEntry) : AuditEntry :=
  { e with policies := e.policies.reread fr }

theorem readDiff_diffToValue (d : DiffEntry) : readDiff (diffToValue d) = some d := by
  have hnodup := fields_nodup.2.1
  have hname : ApplyMode.restart.name ≠ ApplyMode.hot.name := by decide +kernel
  have happly : readApply (.str d.apply.name) = some d.apply := by
    unfold readApply
    cases d.apply with
    | hot => exact if_pos rfl
    | restart => exact (if_neg hname).trans (if_pos rfl)
  rw [readDiff, diffToValue, structFields_zip hnodup rfl]
  show (readApply (.str d.apply.name)).bind (fun a => some (DiffEntry.mk d.path d.before d.after a))
    = _
  rw [happly]
  rfl

theorem readEntry_entryToValue {e : AuditEntry} (h : e.Writable) :
    readEntry fr (entryToValue fr e) = some (e.reread fr) := by
  have hdiff : readDiffs (.arr (e.diff.map diffToValue)) = some e.diff :=
    Lists.mapM_map_of_mem fun d _ => readDiff_diffToValue d
  have hpolicies := @readPolicies_policiesToValue fr e.policies h.policies
  have hnodup := fields_nodup.2.2
  rw [readEntry, entryToValue, structFields_zip hnodup rfl]
  show (readNat (2 ^ 64) (natValue e.tsMs)).bind (fun t =>
    (readNat (2 ^ 64) (natValue e.version)).bind fun v =>
      (readDiffs (.arr (e.diff.map diffToValue))).bind fun d =>
        (readPolicies fr (policiesToValue fr e.policies)).bind fun p =>
          some (AuditEntry.mk t e.actor v d e.impactSummary p)) = _
  rw [readNat_natValue h.tsMs, readNat_natValue h.version, hdiff, hpolicies]
  rfl

theorem valid_policiesToValue (p : Policies) : (policiesToValue fr p).valid = true := by
  have hrules : validItems (p.retention.map ruleToValue) = true :=
    validItems_map fun r _ => by
      simp only [ruleToValue, ruleFields, List.map_cons, List.map_nil, List.zip_cons_cons,
        List.zip_nil_right, Value.valid, validMembers, valid_natValue, Bool.and_self]
  simp only [policiesToValue, policiesFields, storageFields, ingestFields, pushdownFields,
    List.map_cons, List.map_nil, List.zip_cons_cons, List.zip_nil_right, Value.valid, validMembers,
    hrules, valid_natValue, fr.isNumber_write, Bool.and_self]

theorem valid_entryToValue {e : AuditEntry} (h : e.Writable) :
    (entryToValue fr e).valid = true := by
  have hdiff : validItems (e.diff.map diffToValue) = true := by
    have hall := h.diff
    generalize e.diff = ds at hall
    induction ds with
    | nil => rfl
    | cons d ds ih =>
      have hd := hall d List.mem_cons_self
      have hds := ih fun x hx => hall x (List.mem_cons_of_mem d hx)
      simp only [List.map_cons, validItems, hds, diffToValue, diffFields, List.map_nil,
        List.zip_cons_cons, List.zip_nil_right, Value.valid, validMembers, hd.1, hd.2,
        Bool.and_self]
  simp only [entryToValue, entryFields, List.map_cons, List.map_nil, List.zip_cons_cons,
    List.zip_nil_right, Value.valid, validMembers, hdiff, valid_natValue, valid_policiesToValue,
    h.impactSummary, Bool.and_self]

/-! ## What is read is of 64 bits -/

theorem lt_of_readRule {v : Value} {r : RetentionRule} (h : readRule v = some r) :
    r.minSeverity < 2 ^ 64 ∧ r.retentionSecs < 2 ^ 64 := by
  obtain ⟨fields, -, h⟩ := Option.bind_eq_some_iff.mp h
  obtain ⟨name, -, h⟩ := Option.bind_eq_some_iff.mp h
  obtain ⟨m, hm, h⟩ := Option.bind_eq_some_iff.mp h
  obtain ⟨s, hs, h⟩ := Option.bind_eq_some_iff.mp h
  cases h
  exact ⟨lt_of_field hm, lt_of_field hs⟩

theorem fits_of_readPolicies {v : Value} {p : Policies} (h : readPolicies fr v = some p) :
    p.Fits := by
  obtain ⟨fields, -, h⟩ := Option.bind_eq_some_iff.mp h
  obtain ⟨rules, hrules, h⟩ := Option.bind_eq_some_iff.mp h
  obtain ⟨storage, hstorage, h⟩ := Option.bind_eq_some_iff.mp h
  obtain ⟨ingest, hingest, h⟩ := Option.bind_eq_some_iff.mp h
  obtain ⟨pushdown, hpushdown, h⟩ := Option.bind_eq_some_iff.mp h
  cases h
  obtain ⟨vr, -, hrules⟩ := Option.bind_eq_some_iff.mp hrules
  obtain ⟨vs, -, hstorage⟩ := Option.bind_eq_some_iff.mp hstorage
  obtain ⟨vi, -, hingest⟩ := Option.bind_eq_some_iff.mp hingest
  obtain ⟨vp, -, hpushdown⟩ := Option.bind_eq_some_iff.mp hpushdown
  obtain ⟨sf, -, hstorage⟩ := Option.bind_eq_some_iff.mp hstorage
  obtain ⟨budget, hbudget, hstorage⟩ := Option.bind_eq_some_iff.mp hstorage
  obtain ⟨high, -, hstorage⟩ := Option.bind_eq_some_iff.mp hstorage
  obtain ⟨critical, -, hstorage⟩ := Option.bind_eq_some_iff.mp hstorage
  obtain ⟨target, -, hstorage⟩ := Option.bind_eq_some_iff.mp hstorage
  obtain ⟨inf, -, hingest⟩ := Option.bind_eq_some_iff.mp hingest
  obtain ⟨timeout, htimeout, hingest⟩ := Option.bind_eq_some_iff.mp hingest
  obtain ⟨capacity, hcapacity, hingest⟩ := Option.bind_eq_some_iff.mp hingest
  obtain ⟨pf, -, hpushdown⟩ := Option.bind_eq_some_iff.mp hpushdown
  obtain ⟨enabled, -, hpushdown⟩ := Option.bind_eq_some_iff.mp hpushdown
  obtain ⟨trigger, htrigger, hpushdown⟩ := Option.bind_eq_some_iff.mp hpushdown
  cases hstorage
  cases hingest
  cases hpushdown
  refine ⟨?_, lt_of_field hbudget, lt_of_field htimeout, lt_of_field hcapacity,
    lt_of_field htrigger⟩
  intro r hr
  unfold readRules at hrules
  split at hrules
  · next ws =>
    obtain ⟨w, -, hw⟩ := Lists.exists_of_mem_mapM hrules hr
    exact lt_of_readRule hw
  · cases hrules

end LogLess.Policy
