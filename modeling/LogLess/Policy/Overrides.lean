import LogLess.Policy.Document

/-!
# Validation and overrides of the policy document

A document is validated as a whole, each problem at the path that breaks it. What differs from
the configuration file is kept as the keys of leaves, and `overlay` lays the values of a stored
document over the file at these keys. `overlay_overridesBetween`: over the same file that gives the
stored document back.

How a text is shown between quotes is a parameter.
-/

namespace LogLess

/-- `Display` of an error, as far as tenants and buckets give them. -/
def ConfigError.text (debug : Text → Text) : ConfigError → Text
  | .noBuckets => "retention must define at least one level bucket".toList
  | .uncoveredSeverity s => "severity ".toList ++ Decimal.ofNat s.toNat
    ++ " is not covered by any level bucket; the lowest bucket must start at 0".toList
  | .duplicateMinSeverity s =>
    "two level buckets share min_severity ".toList ++ Decimal.ofNat s.toNat
  | .duplicateBucketName => "two level buckets share a name".toList
  | .badBucketName name => "level bucket name ".toList ++ debug name
    ++ (" is not a safe directory name (1 to 64 ASCII letters, digits, _ - +; " ++
      "no Windows device names)").toList
  | .zeroRetention name => "level bucket ".toList ++ debug name
    ++ " has zero retention; remove the bucket instead".toList
  | .noTenants => ("configure at least one [[tenants]] entry, or none at all for the single " ++
      "tenant `default`").toList
  | .noIndexes tenant => "tenant ".toList ++ debug tenant
    ++ " has no indexes; give it at least one [[tenants.indexes]]".toList
  | .badIdent what value => what ++ ' ' :: debug value
    ++ (" is not usable: 1 to 64 of A-Za-z0-9._-, not starting with a dot, with at least one " ++
      "letter (it is a directory name, and a number-only name is read back as a number)").toList
  | .duplicateIdent what value => what ++ ' ' :: debug value
    ++ " is used twice (names are compared ignoring case: they are directories)".toList

namespace Policy

def maxSeverity : ℕ := 24
def maxRetentionSecs : ℕ := 100 * 365 * 24 * 3600
def maxQueueCapacity : ℕ := 2 ^ 20
def maxCriticalTimeoutMs : ℕ := 60000

/-! ## Validation -/

def retentionPath (i : ℕ) (field : Text) : Text :=
  "retention[".toList ++ Decimal.ofNat i ++ "].".toList ++ field

namespace Policies

section

variable (debug : Text → Text) (p : Policies)

/-- The problems of one rule of the list. -/
def ruleProblems (r : RetentionRule) (i : ℕ) : List Problem :=
  let path (field : String) := retentionPath i field.toList
  ((bucketNameProblem r.name).map fun why => (⟨path "name",
    why ++ "; name ".toList ++ debug r.name ++ " cannot be used".toList⟩ : Problem)).toList ++
  (if maxSeverity < r.minSeverity then
    [⟨path "min_severity", "must be 0 to ".toList ++ Decimal.ofNat maxSeverity⟩] else []) ++
  (if r.retentionSecs = 0 ∨ maxRetentionSecs < r.retentionSecs then
    [⟨path "retention_secs", "must be between 1 and ".toList ++ Decimal.ofNat maxRetentionSecs
      ++ " seconds; to stop keeping a level, remove the bucket instead".toList⟩] else []) ++
  (if i = 0 ∧ r.minSeverity ≠ 0 then
    [⟨path "min_severity",
      "the first bucket must start at severity 0 so every record has a bucket".toList⟩] else []) ++
  (if 0 < i ∧ (p.retention[i - 1]?.any fun before => r.minSeverity ≤ before.minSeverity) then
    [⟨path "min_severity", "must be greater than retention[".toList ++ Decimal.ofNat (i - 1)
      ++ "].min_severity; list buckets in ascending severity order".toList⟩] else []) ++
  (((p.retention.take i).findIdx? fun x => asciiLower x.name == asciiLower r.name).map
    fun j => (⟨path "name", "duplicates retention[".toList ++ Decimal.ofNat j
      ++ ("].name (names are compared ignoring case: they are directories, and INFO and info " ++
        "are one directory on macOS and Windows)").toList⟩ : Problem)).toList

def validateRetention : List Problem :=
  if p.retention = [] then [⟨"retention".toList, "define at least one bucket".toList⟩]
  else
    match p.retention.zipIdx.flatMap fun (r, i) => p.ruleProblems debug r i with
    | [] =>
      match p.buckets with
      | .ok _ => []
      | .error e => [⟨"retention".toList, e.text debug⟩]
    | problems => problems

def validateStorage : List Problem :=
  let s := p.storage
  (if s.diskBudgetBytes = 0 then
    [⟨"storage.disk_budget_bytes".toList, "must be greater than 0".toList⟩] else []) ++
  (if ¬ 0 < s.reclaimTarget then
    [⟨"storage.reclaim_target".toList, "must be greater than 0".toList⟩]
  else if s.highWater ≤ s.reclaimTarget then
    [⟨"storage.reclaim_target".toList,
      "must be below high_water, or reclaim would re-trigger on every pass".toList⟩]
  else []) ++
  (if ¬ s.highWater < s.criticalWater then
    [⟨"storage.high_water".toList, "must be below critical_water".toList⟩] else []) ++
  (if ¬ s.criticalWater ≤ 1 then
    [⟨"storage.critical_water".toList, "must be at most 1".toList⟩] else [])

/-- `validate`: every problem. A document without one can be applied. -/
def validate : List Problem :=
  p.validateRetention debug ++ p.validateStorage ++
  (if p.ingest.queueCapacity = 0 ∨ maxQueueCapacity < p.ingest.queueCapacity then
    [⟨"ingest.queue_capacity".toList,
      "must be between 1 and ".toList ++ Decimal.ofNat maxQueueCapacity ++ " records".toList⟩]
  else []) ++
  (if maxCriticalTimeoutMs < p.ingest.criticalEnqueueTimeoutMs then
    [⟨"ingest.critical_enqueue_timeout_ms".toList,
      "at most ".toList ++ Decimal.ofNat maxCriticalTimeoutMs ++ (" ms: the wait is bounded so " ++
        "a stalled disk cannot stall the application").toList⟩] else []) ++
  (if maxSeverity < p.pushdown.triggerSeverity then
    [⟨"pushdown.trigger_severity".toList, "must be 0 to ".toList ++ Decimal.ofNat maxSeverity⟩]
  else [])

variable {debug p}

/-- A valid document has buckets. -/
theorem buckets_of_validate (h : p.validate debug = []) : ∃ b, p.buckets = .ok b := by
  have hretention : p.validateRetention debug = [] := by
    simp only [validate, List.append_eq_nil_iff] at h
    exact h.1.1.1.1
  unfold validateRetention at hretention
  split at hretention
  · cases hretention
  · split at hretention
    · split at hretention
      · next b hb => exact ⟨b, hb⟩
      · cases hretention
    · next hne => exact absurd hretention hne

/-- No rule of a valid document has a problem. -/
theorem ruleProblems_of_validate (h : p.validate debug = []) {r : RetentionRule} {i : ℕ}
    (hr : p.retention[i]? = some r) : p.ruleProblems debug r i = [] := by
  have hretention : p.validateRetention debug = [] := by
    simp only [validate, List.append_eq_nil_iff] at h
    exact h.1.1.1.1
  unfold validateRetention at hretention
  split at hretention
  · cases hretention
  · split at hretention
    · next hnil =>
      exact List.flatMap_eq_nil_iff.mp hnil (r, i) (List.mem_zipIdx_iff_getElem?.mpr hr)
    · next hne => exact absurd hretention hne

/-- A valid document has not many buckets: their severities ascend to 24. -/
theorem length_lt_of_validate (h : p.validate debug = []) : p.retention.length < 2 ^ 64 := by
  have hseverity : ∀ (i : ℕ) (r : RetentionRule), p.retention[i]? = some r →
      i ≤ r.minSeverity ∧ r.minSeverity ≤ maxSeverity := by
    intro i
    induction i with
    | zero =>
      intro r hr
      have hrule := ruleProblems_of_validate h hr
      simp only [ruleProblems, List.append_eq_nil_iff] at hrule
      refine ⟨Nat.zero_le _, ?_⟩
      by_contra hgt
      have hproblem := hrule.1.1.1.1.2
      rw [if_pos (not_le.mp hgt)] at hproblem
      cases hproblem
    | succ i ih =>
      intro r hr
      have hrule := ruleProblems_of_validate h hr
      simp only [ruleProblems, List.append_eq_nil_iff] at hrule
      obtain ⟨before, hbefore⟩ : ∃ before, p.retention[i]? = some before := by
        have hlt := (List.getElem?_eq_some_iff.mp hr).1
        exact ⟨p.retention[i], List.getElem?_eq_getElem (by omega)⟩
      have hprevious := (ih before hbefore).1
      constructor
      · by_contra hle
        have hproblem := hrule.1.2
        rw [if_pos] at hproblem
        · cases hproblem
        · refine ⟨Nat.succ_pos i, ?_⟩
          rw [Nat.add_sub_cancel, hbefore]
          exact decide_eq_true (by omega)
      · by_contra hgt
        have hproblem := hrule.1.1.1.1.2
        rw [if_pos (not_le.mp hgt)] at hproblem
        cases hproblem
  by_contra hge
  have hlt : maxSeverity + 1 < p.retention.length := by
    have hmax : maxSeverity + 1 < 2 ^ 64 := by decide
    omega
  obtain ⟨hlow, hhigh⟩ := hseverity (maxSeverity + 1) p.retention[maxSeverity + 1]
    (List.getElem?_eq_getElem hlt)
  omega

end

end Policies

/-! ## Leaves -/

inductive Leaf where
  | bool (b : Bool)
  | nat (n : ℕ)
  | frac (q : ℚ)
  | text (t : Text)
deriving DecidableEq

/-- A leaf that is not of a bucket. -/
structure Scalar where
  path : Text
  leaf : Policies → Leaf
  /-- The second document with the value that the first one has. -/
  copy : Policies → Policies → Policies

def ingestAndPushdown : List Scalar :=
  [⟨"ingest.critical_enqueue_timeout_ms".toList, fun p => .nat p.ingest.criticalEnqueueTimeoutMs,
      fun s v => { v with
        ingest.criticalEnqueueTimeoutMs := s.ingest.criticalEnqueueTimeoutMs }⟩,
    ⟨"ingest.queue_capacity".toList, fun p => .nat p.ingest.queueCapacity,
      fun s v => { v with ingest.queueCapacity := s.ingest.queueCapacity }⟩,
    ⟨"pushdown.enabled".toList, fun p => .bool p.pushdown.enabled,
      fun s v => { v with pushdown.enabled := s.pushdown.enabled }⟩,
    ⟨"pushdown.trigger_severity".toList, fun p => .nat p.pushdown.triggerSeverity,
      fun s v => { v with pushdown.triggerSeverity := s.pushdown.triggerSeverity }⟩]

def storageScalars : List Scalar :=
  [⟨"storage.critical_water".toList, fun p => .frac p.storage.criticalWater,
      fun s v => { v with storage.criticalWater := s.storage.criticalWater }⟩,
    ⟨"storage.disk_budget_bytes".toList, fun p => .nat p.storage.diskBudgetBytes,
      fun s v => { v with storage.diskBudgetBytes := s.storage.diskBudgetBytes }⟩,
    ⟨"storage.high_water".toList, fun p => .frac p.storage.highWater,
      fun s v => { v with storage.highWater := s.storage.highWater }⟩,
    ⟨"storage.reclaim_target".toList, fun p => .frac p.storage.reclaimTarget,
      fun s v => { v with storage.reclaimTarget := s.storage.reclaimTarget }⟩]

/-- All of them, in the order of their paths. -/
def scalars : List Scalar := ingestAndPushdown ++ storageScalars

/-- `leaves`: the document flattened. -/
def Policies.leaves (p : Policies) : List (Text × Leaf) :=
  (ingestAndPushdown.map fun s => (s.path, s.leaf p)) ++
  (p.retention.zipIdx.flatMap fun (r, i) =>
    [(retentionPath i "min_severity".toList, .nat r.minSeverity),
      (retentionPath i "name".toList, .text r.name),
      (retentionPath i "retention_secs".toList, .nat r.retentionSecs)]) ++
  storageScalars.map fun s => (s.path, s.leaf p)

inductive ApplyMode where
  | hot
  | restart
deriving DecidableEq

/-- `apply_mode`: how a changed leaf takes effect. -/
def applyMode (path : Text) : ApplyMode :=
  if path = "ingest.queue_capacity".toList then .restart else .hot

/-- The key of `natural_cmp`: names, and numbers by their value. -/
def naturalKey (path : Text) : List (Text × ℕ) :=
  ((path.splitOnP fun c => c == '.' || c == '[' || c == ']').filter fun part => !part.isEmpty).map
    fun part => match Decimal.parse part with
      | some n => ([], n)
      | none => (part, 0)

/-- `natural_cmp` on keys. -/
def naturalLe : List (Text × ℕ) → List (Text × ℕ) → Bool
  | [], _ => true
  | _ :: _, [] => false
  | a :: as, b :: bs =>
    match (compare a.1 b.1).then (compare a.2 b.2) with
    | .lt => true
    | .gt => false
    | .eq => naturalLe as bs

/-- One leaf that is different, or of one document only. -/
structure LeafChange where
  path : Text
  before : Option Leaf
  after : Option Leaf
  apply : ApplyMode
deriving DecidableEq

/-- `diff`: the leaves that differ, in the natural order of their paths. -/
def diff (old new : Policies) : List LeafChange :=
  let paths := ((old.leaves ++ new.leaves).map Prod.fst).dedup.insertionSort
    fun a b => naturalLe (naturalKey a) (naturalKey b) = true
  paths.filterMap fun path =>
    let before := Assoc.get old.leaves path
    let after := Assoc.get new.leaves path
    if before ≠ after then some ⟨path, before, after, applyMode path⟩ else none

/-! ## Overrides -/

def sameBucketStructure (a b : Policies) : Bool :=
  a.retention.length == b.retention.length
    && (a.retention.zip b.retention).all fun (x, y) =>
      x.name == y.name && x.minSeverity == y.minSeverity

/-- The keys of the buckets with another retention, from the index `i` on. -/
def retentionKeys : ℕ → List RetentionRule → List RetentionRule → List Text
  | i, f :: fs, d :: ds =>
    (if f.retentionSecs ≠ d.retentionSecs then [retentionPath i "retention_secs".toList] else [])
      ++ retentionKeys (i + 1) fs ds
  | _, _, _ => []

/-- `overrides_between`: the keys at which a document differs from that of the file. -/
def overridesBetween (file doc : Policies) : List Text :=
  (if sameBucketStructure file doc then retentionKeys 0 file.retention doc.retention
  else ["retention".toList]) ++
  (scalars.filter fun s => s.leaf file != s.leaf doc).map Scalar.path

/-- `parse_retention_key`. -/
def parseRetentionKey (key : Text) : Option (ℕ × Text) := do
  let rest ← "retention[".toList.isPrefixOf? key
  let (idx, field) ← Text.splitOnceAt "].".toList rest
  let i ← Decimal.parse idx
  return (i, field)

/-- A rule with one field of another. -/
def copyField (field : Text) (s r : RetentionRule) : Option RetentionRule :=
  if field = "name".toList then some { r with name := s.name }
  else if field = "min_severity".toList then some { r with minSeverity := s.minSeverity }
  else if field = "retention_secs".toList then some { r with retentionSecs := s.retentionSecs }
  else none

section

variable (debug : Text → Text)

def notPartOf (key : Text) : Text :=
  "override ".toList ++ debug key ++ " is not part of the policy document".toList

/-- One key of `overlay`. -/
def overlayKey (file stored v : Policies) (key : Text) : Except Text Policies :=
  match parseRetentionKey key with
  | some (i, field) =>
    -- an override for a bucket that the file no longer has is ignored
    if (file.retention[i]?.map RetentionRule.name) = stored.retention[i]?.map RetentionRule.name then
      match stored.retention[i]? with
      | none => .ok v
      | some s =>
        if (copyField field s s).isNone then .error (notPartOf debug key)
        else .ok { v with
          retention := v.retention.modify i fun r => (copyField field s r).getD r }
    else .ok v
  | none =>
    if key = "retention".toList then .ok { v with retention := stored.retention }
    else
      match scalars.find? fun s => s.path == key with
      | some s => .ok (s.copy stored v)
      | none =>
        if '.' ∈ key then .error (notPartOf debug key)
        else .error ("unknown override key ".toList ++ debug key)

/-- `overlay`: the document of the file with the values of a stored one at these keys. -/
def overlay (file stored : Policies) (overrides : List Text) : Except Text Policies :=
  overrides.foldlM (overlayKey debug file stored) file

end

/-! ## Over the same file -/

theorem parseRetentionKey_retentionPath {i : ℕ} (h : i < 2 ^ 64) (field : Text) :
    parseRetentionKey (retentionPath i field) = some (i, field) := by
  have hnot : ']' ∉ Decimal.ofNat i := by
    intro hmem
    exact absurd (Decimal.isDigit_of_mem_ofNat hmem) (by decide)
  have hsep : "].".toList = [']', '.'] := by decide +kernel
  unfold parseRetentionKey retentionPath
  rw [hsep]
  generalize "retention[".toList = start
  have hrest : start.isPrefixOf? (start ++ Decimal.ofNat i ++ [']', '.'] ++ field)
      = some (Decimal.ofNat i ++ [']', '.'] ++ field) := by
    rw [List.append_assoc, List.append_assoc, Text.isPrefixOf?_append, List.append_assoc]
  have hsplit := @Text.splitOnceAt_append ']' ['.'] _ hnot field
  rw [hrest]
  simp only [Option.bind_eq_bind, Option.bind_some, hsplit, Decimal.parse_ofNat h, pure]

section

variable {debug : Text → Text} {file doc : Policies}

theorem retention_of_sameBucketStructure (h : sameBucketStructure file doc = true) :
    file.retention.length = doc.retention.length ∧ ∀ (i : ℕ) (f d : RetentionRule),
      file.retention[i]? = some f → doc.retention[i]? = some d →
        f.name = d.name ∧ f.minSeverity = d.minSeverity := by
  rw [sameBucketStructure, Bool.and_eq_true, beq_iff_eq, List.all_eq_true] at h
  refine ⟨h.1, fun i f d hf hd => ?_⟩
  have hmem : (f, d) ∈ file.retention.zip doc.retention := by
    refine List.mem_of_getElem? (i := i) ?_
    rw [List.getElem?_zip_eq_some]
    exact ⟨hf, hd⟩
  simpa using h.2 (f, d) hmem

theorem overlayKey_retentionPath {v : Policies} {i : ℕ} {f d : RetentionRule} (hi : i < 2 ^ 64)
    (hf : file.retention[i]? = some f) (hd : doc.retention[i]? = some d) (hname : f.name = d.name) :
    overlayKey debug file doc v (retentionPath i "retention_secs".toList)
      = .ok { v with
          retention := v.retention.modify i fun r => { r with retentionSecs := d.retentionSecs } } := by
  have hcopy : ∀ r, copyField "retention_secs".toList d r
      = some { r with retentionSecs := d.retentionSecs } := fun r => rfl
  unfold overlayKey
  rw [parseRetentionKey_retentionPath hi]
  simp only [hf, hd, Option.map_some, hname, if_true, hcopy, Option.isNone_some, Bool.false_eq_true,
    if_false, Option.getD_some]

theorem modify_append_cons {α : Type} (g : α → α) (as : List α) (b : α) (bs : List α) :
    (as ++ b :: bs).modify as.length g = as ++ g b :: bs := by
  induction as with
  | nil => rfl
  | cons a as ih => rw [List.cons_append, List.length_cons, List.modify_succ_cons, ih]; rfl

/-- The keys of the buckets copy the retention of the rest of the list. -/
theorem foldlM_retentionKeys (hsame : sameBucketStructure file doc = true)
    (hlen : doc.retention.length < 2 ^ 64) {fs ds : List RetentionRule} {v : Policies} (n : ℕ)
    (hfs : file.retention.drop n = fs) (hds : doc.retention.drop n = ds)
    (hv : v.retention = doc.retention.take n ++ fs) :
    (retentionKeys n fs ds).foldlM (overlayKey debug file doc) v
      = .ok { v with retention := doc.retention } := by
  obtain ⟨hlength, hrules⟩ := retention_of_sameBucketStructure hsame
  induction fs generalizing ds v n with
  | nil =>
    have hle : doc.retention.length ≤ n := by
      rw [← hlength]
      exact List.drop_eq_nil_iff.mp hfs
    rw [List.append_nil, List.take_of_length_le hle] at hv
    show Except.ok v = _
    rw [← hv]
  | cons f fs ih =>
    have hlt : n < file.retention.length := by
      by_contra hge
      rw [List.drop_eq_nil_iff.mpr (not_lt.mp hge)] at hfs
      cases hfs
    have hf : file.retention[n]? = some f := by
      rw [← List.head?_drop, hfs]
      rfl
    have hfs' : file.retention.drop (n + 1) = fs := by
      rw [← List.tail_drop, hfs]
      rfl
    cases ds with
    | nil =>
      have hge := List.drop_eq_nil_iff.mp hds
      omega
    | cons d ds =>
      have hd : doc.retention[n]? = some d := by
        rw [← List.head?_drop, hds]
        rfl
      have hds' : doc.retention.drop (n + 1) = ds := by
        rw [← List.tail_drop, hds]
        rfl
      obtain ⟨hname, hseverity⟩ := hrules n f d hf hd
      have htake : doc.retention.take (n + 1) = doc.retention.take n ++ [d] := by
        rw [List.take_add_one, hd]
        rfl
      have hlen' : (doc.retention.take n).length = n := by
        rw [List.length_take]
        omega
      rw [retentionKeys, List.foldlM_append]
      by_cases hsecs : f.retentionSecs = d.retentionSecs
      · have hfd : f = d := by
          cases f
          cases d
          simp only at hname hseverity hsecs
          rw [hname, hseverity, hsecs]
        rw [if_neg (not_not.mpr hsecs)]
        refine ih (n + 1) hfs' hds' ?_
        rw [hv, htake, hfd, List.append_assoc]
        rfl
      · have hmodify : (v.retention.modify n fun r => { r with retentionSecs := d.retentionSecs })
            = doc.retention.take (n + 1) ++ fs := by
          have hnew : { f with retentionSecs := d.retentionSecs } = d := by
            cases f
            cases d
            simp only at hname hseverity
            rw [hname, hseverity]
          have happend := modify_append_cons (fun r : RetentionRule =>
            { r with retentionSecs := d.retentionSecs }) (doc.retention.take n) f fs
          rw [hlen', hnew] at happend
          rw [hv, happend, htake, List.append_assoc]
          rfl
        have hkey := @overlayKey_retentionPath debug file doc v n f d (by omega) hf hd hname
        rw [if_pos hsecs, List.foldlM_cons, hkey]
        exact ih (n + 1) hfs' hds' hmodify

/-- The keys of the other leaves copy them all: a leaf without a key is the same already. -/
theorem foldlM_scalars {ss : List Scalar} {v : Policies}
    (hkey : ∀ s ∈ ss, ∀ v, overlayKey debug file doc v s.path = .ok (s.copy doc v))
    (hleaf : ∀ s ∈ ss, ∀ v, s.leaf v = s.leaf doc → s.copy doc v = v)
    (hv : ∀ s ∈ ss, s.leaf v = s.leaf file)
    (hcopy : ss.Pairwise fun s s' => ∀ v, s'.leaf (s.copy doc v) = s'.leaf v) :
    ((ss.filter fun s => s.leaf file != s.leaf doc).map Scalar.path).foldlM
        (overlayKey debug file doc) v
      = .ok (ss.foldl (fun v s => s.copy doc v) v) := by
  induction ss generalizing v with
  | nil => rfl
  | cons s ss ih =>
    rw [List.pairwise_cons] at hcopy
    have hrest := fun v' hv' => @ih v' (fun s hs => hkey s (List.mem_cons_of_mem _ hs))
      (fun s hs => hleaf s (List.mem_cons_of_mem _ hs)) hv' hcopy.2
    rw [List.foldl_cons, List.filter_cons]
    by_cases heq : s.leaf file = s.leaf doc
    · have hsame := hleaf s List.mem_cons_self v ((hv s List.mem_cons_self).trans heq)
      rw [if_neg (by simpa using heq), hsame]
      exact hrest v fun s hs => hv s (List.mem_cons_of_mem _ hs)
    · rw [if_pos (by simpa using heq), List.map_cons, List.foldlM_cons,
        hkey s List.mem_cons_self]
      refine hrest (s.copy doc v) fun s' hs' => ?_
      rw [hcopy.1 s' hs']
      exact hv s' (List.mem_cons_of_mem _ hs')

theorem nodup_paths_scalars : (scalars.map Scalar.path).Nodup := by decide +kernel

theorem parseRetentionKey_scalars :
    (scalars.map fun s => parseRetentionKey s.path) = List.replicate 8 none := by decide +kernel

theorem overlayKey_scalar {s : Scalar} (hs : s ∈ scalars) (v : Policies) :
    overlayKey debug file doc v s.path = .ok (s.copy doc v) := by
  have hparse : parseRetentionKey s.path = none := by
    have hmem : parseRetentionKey s.path ∈ List.replicate 8 none := by
      rw [← parseRetentionKey_scalars]
      exact List.mem_map_of_mem hs
    exact List.eq_of_mem_replicate hmem
  have hne : s.path ≠ "retention".toList := by
    have hnot : "retention".toList ∉ scalars.map Scalar.path := by decide +kernel
    intro heq
    exact hnot (heq ▸ List.mem_map_of_mem hs)
  have hfind : (scalars.find? fun x => x.path == s.path) = some s := by
    cases h : scalars.find? fun x => x.path == s.path with
    | none => exact absurd (beq_self_eq_true s.path) (List.find?_eq_none.mp h s hs)
    | some x =>
      have hpath : x.path = s.path := by simpa using List.find?_some h
      rw [List.inj_on_of_nodup_map nodup_paths_scalars (List.mem_of_find?_eq_some h) hs hpath]
  unfold overlayKey
  rw [hparse]
  simp only
  rw [if_neg hne, hfind]

theorem copy_of_leaf {s : Scalar} (hs : s ∈ scalars) {v : Policies} (h : s.leaf v = s.leaf doc) :
    s.copy doc v = v := by
  simp only [scalars, ingestAndPushdown, storageScalars, List.cons_append, List.nil_append,
    List.mem_cons, List.not_mem_nil, or_false] at hs
  rcases hs with rfl | rfl | rfl | rfl | rfl | rfl | rfl | rfl <;>
    simp only [Leaf.nat.injEq, Leaf.bool.injEq, Leaf.frac.injEq] at h <;> simp only [← h]

/-- **Over the same file** the overrides of a document give the document. -/
theorem overlay_overridesBetween (hlen : doc.retention.length < 2 ^ 64) :
    overlay debug file doc (overridesBetween file doc) = .ok doc := by
  have hretention : (if sameBucketStructure file doc then
        retentionKeys 0 file.retention doc.retention
      else ["retention".toList]).foldlM (overlayKey debug file doc) file
        = .ok { file with retention := doc.retention } := by
    split
    · next hsame => exact foldlM_retentionKeys hsame hlen 0 rfl rfl rfl
    · have hparse : parseRetentionKey "retention".toList = none := by decide +kernel
      have hkey : overlayKey debug file doc file "retention".toList
          = .ok { file with retention := doc.retention } := by
        unfold overlayKey
        rw [hparse]
        simp only [if_true]
      rw [List.foldlM_cons, hkey]
      rfl
  have hscalars := @foldlM_scalars debug file doc scalars { file with retention := doc.retention }
    (fun s hs v => overlayKey_scalar hs v) (fun s hs v h => copy_of_leaf hs h)
  rw [overlay, overridesBetween, List.foldlM_append, hretention]
  refine (hscalars ?_ ?_).trans rfl
  · intro s hs
    simp only [scalars, ingestAndPushdown, storageScalars, List.cons_append, List.nil_append,
      List.mem_cons, List.not_mem_nil, or_false] at hs
    rcases hs with rfl | rfl | rfl | rfl | rfl | rfl | rfl | rfl <;> rfl
  · simp only [scalars, ingestAndPushdown, storageScalars, List.cons_append, List.nil_append,
      List.pairwise_cons, List.mem_cons, List.not_mem_nil, or_false, forall_eq_or_imp, forall_eq,
      implies_true, and_self, List.Pairwise.nil, false_implies]

end

end Policy

end LogLess
