import LogLess.Relief.Budget

/-!
# The policy document

The part of the configuration that can be changed while the agent runs. Its fractions are
finite floats, so rational numbers. The buckets of a document are those of the default index
of the own tenant; every other index keeps what the configuration file says.
-/

namespace LogLess

/-! ## The buckets of the default index -/

theorem LevelBuckets.buckets_of_new {bs : List LevelBucket} {b : LevelBuckets}
    (h : LevelBuckets.new bs = .ok b) :
    b.buckets = Lists.sortByKey (fun x => x.minSeverity.toNat) bs := by
  unfold LevelBuckets.new at h
  simp only at h
  split at h
  · cases h
  · next hsorted =>
    split at h
    · cases h
    · split at h
      · cases h
      · cases h
      · split at h
        · rw [← Except.ok.inj h, hsorted]
        · cases h

/-- Buckets that were accepted are accepted again. -/
theorem LevelBuckets.new_again {bs : List LevelBucket} {b : LevelBuckets}
    (h : LevelBuckets.new bs = .ok b) : LevelBuckets.new b.buckets = .ok b := by
  have hsorted : Lists.sortByKey (fun x : LevelBucket => x.minSeverity.toNat) b.buckets
      = Lists.sortByKey (fun x => x.minSeverity.toNat) bs := by
    rw [buckets_of_new h]
    exact (Lists.pairwise_sortByKey _ bs).insertionSort_eq
  rw [← h]
  unfold LevelBuckets.new
  rw [hsorted]

/-- The index of this name with other buckets. -/
def setBuckets (name : Text) (b : LevelBuckets) : List IndexConfig → List IndexConfig
  | [] => []
  | i :: rest =>
    if i.name = name then { i with retention := b } :: rest else i :: setBuckets name b rest

theorem checkIndexes_setBuckets {name : Text} {b b' : LevelBuckets}
    (hb : LevelBuckets.new b.buckets = .ok b') {names : List Text} {is : List IndexConfig}
    (h : checkIndexes names is = .ok ()) : checkIndexes names (setBuckets name b is) = .ok () := by
  induction is generalizing names with
  | nil => exact h
  | cons i is ih =>
    unfold checkIndexes at h
    unfold setBuckets
    split at h
    · cases h
    · next hvalid =>
      split at h
      · cases h
      · next hfresh =>
        split at h
        · cases h
        · next hnew =>
          split
          · unfold checkIndexes
            simp only [hvalid, hfresh, if_false, hb]
            exact h
          · unfold checkIndexes
            simp only [hvalid, hfresh, if_false, hnew]
            exact ih h

theorem setBuckets_ne_nil {name : Text} {b : LevelBuckets} {is : List IndexConfig} (h : is ≠ []) :
    setBuckets name b is ≠ [] := by
  cases is with
  | nil => exact absurd rfl h
  | cons i is =>
    unfold setBuckets
    split <;> simp

/-- The tenants with the buckets of one index of the first one replaced. -/
def setFirstBuckets (name : Text) (b : LevelBuckets) : List TenantConfig → List TenantConfig
  | [] => []
  | c :: rest => { c with indexes := setBuckets name b c.indexes } :: rest

theorem checkTenancy_setFirstBuckets {name : Text} {b b' : LevelBuckets}
    (hb : LevelBuckets.new b.buckets = .ok b') {tenants : List TenantConfig} {node : Text}
    (h : checkTenancy tenants node = .ok ()) :
    checkTenancy (setFirstBuckets name b tenants) node = .ok () := by
  cases tenants with
  | nil => exact h
  | cons c rest =>
    have hne : setFirstBuckets name b (c :: rest) ≠ [] := by simp [setFirstBuckets]
    unfold checkTenancy at h ⊢
    split at h
    · cases h
    · next hnode =>
      simp only [reduceCtorEq, if_false] at h
      rw [if_neg hnode, if_neg hne]
      unfold setFirstBuckets
      unfold checkTenants at h ⊢
      split at h
      · cases h
      · next hvalid =>
        split at h
        · cases h
        · next hseen =>
          split at h
          · cases h
          · next hindexes =>
            split at h
            · cases h
            · next hcheck =>
              have hcheck' := @checkIndexes_setBuckets name _ _ hb _ _ hcheck
              simp only [hvalid, hseen, if_false, setBuckets_ne_nil hindexes,
                hcheck']
              exact h

/-- `set_default_buckets`. -/
def Tenancy.setDefaultBuckets (t : Tenancy) (b : LevelBuckets)
    (hb : LevelBuckets.new b.buckets = .ok b) : Tenancy where
  tenants := setFirstBuckets ((t.defaultIndexOf t.tenant).getD []) b t.tenants
  node := t.node
  checked := checkTenancy_setFirstBuckets hb t.checked

namespace Policy

/-! ## The document -/

structure RetentionRule where
  name : Text
  minSeverity : ℕ
  retentionSecs : ℕ
deriving DecidableEq

structure StoragePolicy where
  diskBudgetBytes : ℕ
  highWater : ℚ
  criticalWater : ℚ
  reclaimTarget : ℚ
deriving DecidableEq

structure IngestPolicy where
  criticalEnqueueTimeoutMs : ℕ
  queueCapacity : ℕ
deriving DecidableEq

structure PushdownPolicy where
  enabled : Bool
  triggerSeverity : ℕ
deriving DecidableEq

structure Policies where
  retention : List RetentionRule
  storage : StoragePolicy
  ingest : IngestPolicy
  pushdown : PushdownPolicy
deriving DecidableEq

structure Problem where
  path : Text
  message : Text
deriving DecidableEq

def minSafeQueueCapacity : ℕ := 1024

namespace Policies

def buckets (p : Policies) : Except ConfigError LevelBuckets :=
  LevelBuckets.new <| p.retention.map fun r =>
    ⟨r.name, UInt8.ofNat (min r.minSeverity 255), r.retentionSecs * 10 ^ 9⟩

def watermarks (p : Policies) : Relief.Watermarks :=
  ⟨p.storage.highWater, p.storage.criticalWater, p.storage.reclaimTarget⟩

/-- `tenancy_under`: the tenancy a pass under this document enforces. -/
def tenancyUnder (p : Policies) (t : Tenancy) : Except ConfigError Tenancy :=
  match h : p.buckets with
  | .ok b => .ok (t.setDefaultBuckets b (LevelBuckets.new_again h))
  | .error e => .error e

end Policies

/-- `lossy_settings`: what `proposed` newly sets that loses data without deleting any. -/
def lossySettings (current proposed : Policies) : List Problem :=
  let tinyQueue := proposed.ingest.queueCapacity < minSafeQueueCapacity
  (if tinyQueue ∧ proposed.ingest.queueCapacity ≠ current.ingest.queueCapacity then
    [⟨"ingest.queue_capacity".toList, "below ".toList ++ Decimal.ofNat minSafeQueueCapacity ++
      (" records the queue overflows on ordinary bursts and " ++
        "DEBUG/INFO records are dropped").toList⟩]
  else []) ++
  (if proposed.ingest.criticalEnqueueTimeoutMs = 0
      ∧ current.ingest.criticalEnqueueTimeoutMs ≠ 0 then
    [⟨"ingest.critical_enqueue_timeout_ms".toList, ("0 ms drops WARN and above immediately " ++
      "when the queue is full instead of waiting for room").toList⟩]
  else []) ++
  (if current.pushdown.enabled ∧ ¬ proposed.pushdown.enabled then
    [⟨"pushdown.enabled".toList, ("disabling pushdown stops forwarding errors as they arrive; " ++
      "they are only kept in the store").toList⟩]
  else [])

end Policy

end LogLess
