import LogLess.Model
import LogLess.Lib.Decimal
import LogLess.Lib.Lists

/-!
# Tenants, indexes and level buckets

The part of the configuration the write path reads: which tenant and index a record is
for, and which level bucket its severity falls in. A `Tenancy` is what `Tenancy::new`
accepted; that check looks at the buckets of an index in order of severity but keeps
them in the order they were listed.
-/

namespace LogLess

/-! ## Names -/

def defaultTenant : Text := "default".toList
def defaultIndex : Text := "default".toList

/-- `ATTR_INDEX`: the attribute that names the index a record is for. -/
def attrIndex : Text := "logless.index".toList

/-- `ATTR_TENANT`: the attribute that names the tenant a record belongs to. -/
def attrTenant : Text := "logless.tenant".toList

/-- `valid_ident`: what a tenant, index or node id may be. -/
def validIdent (s : Text) : Bool :=
  (1 ≤ s.len && s.len ≤ 64) && s.head? != some '.' &&
    s.all (fun c => c.isAlphanum || c == '.' || c == '_' || c == '-') && s.any Char.isAlpha

def asciiLower (s : Text) : Text := s.map Char.toLower
def asciiUpper (s : Text) : Text := s.map Char.toUpper

/-- `bucket_name_problem`: why a name cannot be a bucket's directory. -/
def bucketNameProblem (name : Text) : Option Text :=
  if name = [] ∨ 64 < name.len then some "must be 1 to 64 characters".toList
  else if ¬ name.all fun c => c.isAlphanum || c == '_' || c == '-' || c == '+' then
    some ("may contain only ASCII letters, digits, _ - and + " ++
      "(it is a directory name on disk)").toList
  else
    let upper := asciiUpper name
    let device := upper ∈ ["CON", "PRN", "AUX", "NUL"].map String.toList ∨
      (upper.take 3 ∈ ["COM", "LPT"].map String.toList ∧ upper.len = 4 ∧
        upper[3]?.any fun c => c.isDigit && c != '0')
    if device then some "is a reserved device name on Windows filesystems".toList else none

inductive ConfigError where
  | noBuckets
  | uncoveredSeverity (severity : UInt8)
  | duplicateMinSeverity (severity : UInt8)
  | duplicateBucketName
  | badBucketName (name : Text)
  | zeroRetention (name : Text)
  | noTenants
  | noIndexes (tenant : Text)
  | badIdent (what value : Text)
  | duplicateIdent (what value : Text)
deriving DecidableEq

/-! ## Level buckets -/

/-- A severity bucket: a directory and the unit of retention, which is in nanoseconds. -/
structure LevelBucket where
  name : Text
  minSeverity : UInt8
  retention : ℕ
deriving DecidableEq

structure LevelBuckets where
  buckets : List LevelBucket
deriving DecidableEq

namespace LevelBuckets

/-- The first severity two neighbours of a sorted list share. -/
def sharedSeverity : List LevelBucket → Option UInt8
  | a :: b :: rest =>
    if a.minSeverity = b.minSeverity then some a.minSeverity else sharedSeverity (b :: rest)
  | _ => none

/-- The first bucket whose name or retention is refused. -/
def badBucket : List LevelBucket → Option ConfigError
  | [] => none
  | b :: rest =>
    if (bucketNameProblem b.name).isSome then some (.badBucketName b.name)
    else if b.retention = 0 then some (.zeroRetention b.name)
    else badBucket rest

/-- `LevelBuckets::new`. -/
def new (buckets : List LevelBucket) : Except ConfigError LevelBuckets :=
  let sorted := Lists.sortByKey (fun b => b.minSeverity.toNat) buckets
  match sorted with
  | [] => .error .noBuckets
  | first :: _ =>
    if first.minSeverity ≠ 0 then .error (.uncoveredSeverity 0)
    else match sharedSeverity sorted, badBucket sorted with
      | some s, _ => .error (.duplicateMinSeverity s)
      | none, some e => .error e
      | none, none =>
        if (sorted.map fun b => asciiLower b.name).Nodup then .ok ⟨sorted⟩
        else .error .duplicateBucketName

/-- `slice::partition_point`: a binary search, which on a list that is not partitioned
ends where its probes lead it. -/
def partitionPoint {α : Type} (p : α → Bool) (l : List α) : ℕ :=
  let rec search (fuel base size : ℕ) : ℕ :=
    match fuel with
    | 0 => base
    | fuel + 1 =>
      if size ≤ 1 then base
      else
        let half := size / 2
        let mid := base + half
        search fuel (if l[mid]?.any p then mid else base) (size - half)
  let base := search l.length 0 l.length
  if l[base]?.any p then base + 1 else base

/-- `LevelBuckets::bucket_for`. -/
def bucketFor (b : LevelBuckets) (severity : Severity) : Option LevelBucket :=
  b.buckets[partitionPoint (fun x => x.minSeverity ≤ severity.num) b.buckets - 1]?

/-- `LevelBuckets::default`. -/
def standard : LevelBuckets where
  buckets :=
    [⟨"debug".toList, 0, 24 * 3600 * 10 ^ 9⟩, ⟨"info".toList, 9, 7 * 24 * 3600 * 10 ^ 9⟩,
      ⟨"warn_plus".toList, 13, 30 * 24 * 3600 * 10 ^ 9⟩]

end LevelBuckets

/-! ## Tenants -/

inductive UnknownIndex where
  | refuse
  | default
deriving DecidableEq, Repr

structure IndexConfig where
  name : Text
  retention : LevelBuckets
deriving DecidableEq

structure TenantConfig where
  id : Text
  unknownIndex : UnknownIndex
  indexes : List IndexConfig
deriving DecidableEq

/-- The checks of `Tenancy::new` on the indexes of one tenant. -/
def checkIndexes : List Text → List IndexConfig → Except ConfigError Unit
  | _, [] => .ok ()
  | names, i :: rest =>
    if ¬ validIdent i.name then .error (.badIdent "index name".toList i.name)
    else if asciiLower i.name ∈ names then .error (.duplicateIdent "index name".toList i.name)
    else match LevelBuckets.new i.retention.buckets with
      | .error e => .error e
      | .ok _ => checkIndexes (names ++ [asciiLower i.name]) rest

def checkTenants : List Text → List TenantConfig → Except ConfigError Unit
  | _, [] => .ok ()
  | seen, t :: rest =>
    if ¬ validIdent t.id then .error (.badIdent "tenant id".toList t.id)
    else if asciiLower t.id ∈ seen then .error (.duplicateIdent "tenant id".toList t.id)
    else if t.indexes = [] then .error (.noIndexes t.id)
    else match checkIndexes [] t.indexes with
      | .error e => .error e
      | .ok _ => checkTenants (seen ++ [asciiLower t.id]) rest

def checkTenancy (tenants : List TenantConfig) (node : Text) : Except ConfigError Unit :=
  if ¬ validIdent node then .error (.badIdent "node id".toList node)
  else if tenants = [] then .error .noTenants
  else checkTenants [] tenants

/-- The tenants and indexes of an instance, checked. -/
structure Tenancy where
  tenants : List TenantConfig
  node : Text
  checked : checkTenancy tenants node = .ok ()

/-- Where one record goes. -/
inductive Route where
  | known (index : Text)
  | defaulted (index : Text)
  | refused
deriving DecidableEq

/-- The default index of a tenant: the one named `default`, or else its first. -/
def TenantConfig.defaultIndex (t : TenantConfig) : Option Text :=
  ((t.indexes.find? fun i => i.name == LogLess.defaultIndex).or t.indexes.head?).map IndexConfig.name

namespace Tenancy

/-- `Tenancy::new`. -/
def new (tenants : List TenantConfig) (node : Text) : Except ConfigError Tenancy :=
  match h : checkTenancy tenants node with
  | .ok () => .ok ⟨tenants, node, h⟩
  | .error e => .error e

theorem tenants_ne_nil (t : Tenancy) : t.tenants ≠ [] := by
  intro hnil
  have h := t.checked
  simp only [checkTenancy, hnil] at h
  split at h <;> cases h

/-- The tenant this instance writes under: the first one configured. -/
def tenant (t : Tenancy) : Text := (t.tenants.head t.tenants_ne_nil).id

def configured (t : Tenancy) (tenant : Text) : Option TenantConfig :=
  t.tenants.find? fun c => c.id == tenant

def defaultIndexOf (t : Tenancy) (tenant : Text) : Option Text :=
  (t.configured tenant).bind TenantConfig.defaultIndex

def buckets (t : Tenancy) (tenant index : Text) : Option LevelBuckets := do
  let c ← t.configured tenant
  let i ← c.indexes.find? fun i => i.name == index
  return i.retention

/-- The buckets of the own tenant's default index. -/
def defaultBuckets (t : Tenancy) : LevelBuckets :=
  ((t.defaultIndexOf t.tenant).bind (t.buckets t.tenant)).getD ⟨[]⟩

/-- What a tenant does with a record for an index it does not have. -/
def unknownIndex (t : Tenancy) (tenant : Text) : Option UnknownIndex :=
  (t.configured tenant).map TenantConfig.unknownIndex

/-- The name of an index as the tenant has it configured. -/
def indexOf (t : Tenancy) (tenant index : Text) : Option Text := do
  let c ← t.configured tenant
  let i ← c.indexes.find? fun i => i.name == index
  return i.name

def routeIn (t : Tenancy) (tenant : Text) (requested : Option Text) : Route :=
  match t.configured tenant, t.defaultIndexOf tenant with
  | some c, some default =>
    match requested with
    | none => .known default
    | some requested =>
      match c.indexes.find? fun i => i.name == requested with
      | some i => .known i.name
      | none => if c.unknownIndex = .default then .defaulted default else .refused
  | _, _ => .refused

end Tenancy

/-- `to_string` of an attribute value. How a float is printed is left open. -/
def AttrValue.toText (showFloat : UInt64 → Text) : AttrValue → Text
  | .str s => s
  | .i64 n => Decimal.ofInt n
  | .f64 bits => showFloat bits
  | .bool b => (if b then "true" else "false").toList

namespace Tenancy

/-- The tenant a record says it is of; `none` when its attribute is not a string. -/
def tenantOf (t : Tenancy) (r : LogRecord) : Option Text :=
  match r.attributes.find? fun a => a.key == attrTenant with
  | some ⟨_, .str tenant⟩ => some tenant
  | some _ => none
  | none => some t.tenant

/-- The index a record asks for, under `key` or `ATTR_INDEX`. -/
def requestedIndex (showFloat : UInt64 → Text) (r : LogRecord) (key : Text) : Option Text :=
  (r.attributes.find? fun a => a.key == key || a.key == attrIndex).map fun a =>
    a.value.toText showFloat

/-- A record rewritten to the index chosen for it: no attribute for the default one. -/
def placed (t : Tenancy) (r : LogRecord) (key tenant chosen : Text) : LogRecord :=
  let kept := r.attributes.filter fun a => a.key != key && a.key != attrIndex
  { r with
    attributes :=
      if some chosen = t.defaultIndexOf tenant then kept
      else kept ++ [⟨attrIndex, .str chosen⟩] }

/-- `route_record`: the route, and the record rewritten to it. A refused record is left
as it is. -/
def routeRecord (t : Tenancy) (showFloat : UInt64 → Text) (r : LogRecord) (key : Text) :
    LogRecord × Route :=
  match t.tenantOf r with
  | none => (r, .refused)
  | some tenant =>
    let route := t.routeIn tenant (requestedIndex showFloat r key)
    match route with
    | .known chosen => (t.placed r key tenant chosen, route)
    | .defaulted chosen => (t.placed r key tenant chosen, route)
    | .refused => (r, route)

end Tenancy

/-! ## What a checked tenancy says -/

theorem LevelBuckets.partitionPoint_le {α : Type} (p : α → Bool) {l : List α} (h : l ≠ []) :
    partitionPoint p l ≤ l.length := by
  have hsearch : ∀ fuel base size, 0 < size → base + size ≤ l.length →
      partitionPoint.search p l fuel base size < l.length := by
    intro fuel
    induction fuel with
    | zero => intro base size hpos hle; unfold partitionPoint.search; omega
    | succ fuel ih =>
      intro base size hpos hle
      unfold partitionPoint.search
      split
      · omega
      · refine ih _ _ (by omega) ?_
        split <;> omega
  have hpos := List.length_pos_iff.mpr h
  have := hsearch l.length 0 l.length hpos (by omega)
  unfold partitionPoint
  simp only
  split <;> omega

theorem LevelBuckets.exists_bucketFor {b : LevelBuckets} (h : b.buckets ≠ []) (s : Severity) :
    ∃ x ∈ b.buckets, b.bucketFor s = some x := by
  have hpos := List.length_pos_iff.mpr h
  have hle := partitionPoint_le (fun x : LevelBucket => x.minSeverity ≤ s.num) h
  obtain ⟨x, hx⟩ : ∃ x, b.bucketFor s = some x :=
    Option.isSome_iff_exists.mp (by
      rw [bucketFor, isSome_getElem?]
      omega)
  exact ⟨x, List.mem_of_getElem? hx, hx⟩

theorem LevelBuckets.badBucket_eq_none {bs : List LevelBucket} (h : badBucket bs = none) :
    ∀ b ∈ bs, b.name ≠ [] := by
  induction bs with
  | nil => simp
  | cons b bs ih =>
    unfold badBucket at h
    split at h
    · cases h
    · next hname =>
      split at h
      · cases h
      · intro x hx
        rcases List.mem_cons.mp hx with rfl | hx
        · rintro hnil
          apply hname
          simp [bucketNameProblem, hnil]
        · exact ih h x hx

/-- Buckets that are accepted: there is one, and each has a name. -/
theorem LevelBuckets.new_eq_ok {bs : List LevelBucket} {b : LevelBuckets}
    (h : LevelBuckets.new bs = .ok b) : bs ≠ [] ∧ ∀ x ∈ bs, x.name ≠ [] := by
  have hperm := Lists.perm_sortByKey (fun b : LevelBucket => b.minSeverity.toNat) bs
  unfold LevelBuckets.new at h
  simp only at h
  split at h
  · cases h
  · next first rest hsorted =>
    split at h
    · cases h
    · split at h
      · cases h
      · cases h
      · next hbad =>
        refine ⟨?_, fun x hx => badBucket_eq_none hbad x (hperm.mem_iff.mpr hx)⟩
        rintro rfl
        cases hsorted

theorem checkIndexes_eq_ok {names : List Text} {is : List IndexConfig}
    (h : checkIndexes names is = .ok ()) :
    ∀ i ∈ is, validIdent i.name = true ∧ i.retention.buckets ≠ [] ∧
      ∀ b ∈ i.retention.buckets, b.name ≠ [] := by
  induction is generalizing names with
  | nil => simp
  | cons i is ih =>
    unfold checkIndexes at h
    split at h
    · cases h
    · next hvalid =>
      split at h
      · cases h
      · split at h
        · cases h
        · next hnew =>
          intro j hj
          rcases List.mem_cons.mp hj with rfl | hj
          · exact ⟨by simpa using hvalid, LevelBuckets.new_eq_ok hnew⟩
          · exact ih h j hj

theorem checkTenants_eq_ok {seen : List Text} {ts : List TenantConfig}
    (h : checkTenants seen ts = .ok ()) :
    ∀ t ∈ ts, validIdent t.id = true ∧ t.indexes ≠ [] ∧ checkIndexes [] t.indexes = .ok () := by
  induction ts generalizing seen with
  | nil => simp
  | cons t ts ih =>
    unfold checkTenants at h
    split at h
    · cases h
    · next hvalid =>
      split at h
      · cases h
      · split at h
        · cases h
        · next hindexes =>
          split at h
          · cases h
          · next hcheck =>
            intro u hu
            rcases List.mem_cons.mp hu with rfl | hu
            · exact ⟨by simpa using hvalid, hindexes, hcheck⟩
            · exact ih h u hu

namespace Tenancy

variable {t : Tenancy} {tenant index : Text}

theorem checked_tenants (t : Tenancy) :
    validIdent t.node = true ∧ ∀ c ∈ t.tenants, validIdent c.id = true ∧ c.indexes ≠ [] ∧
      checkIndexes [] c.indexes = .ok () := by
  have h := t.checked
  unfold checkTenancy at h
  split at h
  · cases h
  · next hnode =>
    split at h
    · cases h
    · exact ⟨by simpa using hnode, checkTenants_eq_ok h⟩

theorem mem_of_configured {c : TenantConfig} (h : t.configured tenant = some c) : c ∈ t.tenants :=
  List.mem_of_find?_eq_some h

theorem validIdent_of_configured {c : TenantConfig} (h : t.configured tenant = some c) :
    validIdent tenant = true := by
  have hid : c.id = tenant := by simpa using List.find?_some h
  rw [← hid]
  exact (t.checked_tenants.2 c (mem_of_configured h)).1

/-- The tenant has an index of this name. -/
theorem indexOf_eq_some {name : Text} (h : t.indexOf tenant index = some name) :
    name = index ∧ ∃ c i, t.configured tenant = some c ∧
      c.indexes.find? (fun i => i.name == index) = some i ∧ i.name = index := by
  obtain ⟨c, hc, h⟩ := Option.bind_eq_some_iff.mp h
  obtain ⟨i, hi, h⟩ := Option.bind_eq_some_iff.mp h
  have hname : i.name = index := by simpa using List.find?_some hi
  exact ⟨by rw [← Option.some.inj h, hname], c, i, hc, hi, hname⟩

/-- The default index of a tenant is one it has. -/
theorem indexOf_default (h : t.defaultIndexOf tenant = some index) :
    t.indexOf tenant index = some index := by
  obtain ⟨c, hc, h⟩ := Option.bind_eq_some_iff.mp h
  obtain ⟨i, hi, rfl⟩ := Option.map_eq_some_iff.mp h
  have hmem : i ∈ c.indexes := by
    rcases Option.or_eq_some_iff.mp hi with hi | ⟨-, hi⟩
    · exact List.mem_of_find?_eq_some hi
    · exact List.mem_of_mem_head? hi
  have hsome : (c.indexes.find? fun j => j.name == i.name).isSome := by
    rw [List.find?_isSome]
    exact ⟨i, hmem, by simp⟩
  obtain ⟨j, hj⟩ := Option.isSome_iff_exists.mp hsome
  have hname : j.name = i.name := by simpa using List.find?_some hj
  simp [indexOf, hc, hj, hname]

/-- A tenant that is configured has a default index. -/
theorem defaultIndexOf_isSome {c : TenantConfig} (hc : t.configured tenant = some c)
    {i : IndexConfig} (hi : i ∈ c.indexes) : ∃ d, t.defaultIndexOf tenant = some d := by
  have hhead : c.indexes.head?.isSome := by
    rw [List.isSome_head?]
    exact List.ne_nil_of_mem hi
  obtain ⟨j, hj⟩ := Option.isSome_iff_exists.mp hhead
  simp only [defaultIndexOf, hc, Option.bind_some, TenantConfig.defaultIndex, hj]
  cases c.indexes.find? fun i => i.name == LogLess.defaultIndex with
  | none => exact ⟨j.name, rfl⟩
  | some i => exact ⟨i.name, rfl⟩

theorem routeIn_indexOf (h : t.indexOf tenant index = some index) :
    t.routeIn tenant (some index) = .known index := by
  obtain ⟨-, c, i, hc, hi, hname⟩ := indexOf_eq_some h
  obtain ⟨d, hd⟩ := defaultIndexOf_isSome hc (List.mem_of_find?_eq_some hi)
  simp only [routeIn, hc, hd, hi, hname]

/-- The buckets of an index that is configured. -/
theorem named_of_buckets {b : LevelBuckets} (h : t.buckets tenant index = some b) :
    b.buckets ≠ [] ∧ ∀ x ∈ b.buckets, x.name ≠ [] := by
  obtain ⟨c, hc, h⟩ := Option.bind_eq_some_iff.mp h
  obtain ⟨i, hi, h⟩ := Option.bind_eq_some_iff.mp h
  obtain rfl := Option.some.inj h
  have hcheck := (t.checked_tenants.2 c (mem_of_configured hc)).2.2
  exact (checkIndexes_eq_ok hcheck i (List.mem_of_find?_eq_some hi)).2

theorem validIdent_of_indexOf (h : t.indexOf tenant index = some index) :
    validIdent index = true := by
  obtain ⟨-, c, i, hc, hi, rfl⟩ := indexOf_eq_some h
  have hcheck := (t.checked_tenants.2 c (mem_of_configured hc)).2.2
  exact (checkIndexes_eq_ok hcheck i (List.mem_of_find?_eq_some hi)).1

theorem buckets_of_indexOf (h : t.indexOf tenant index = some index) :
    ∃ b, t.buckets tenant index = some b := by
  obtain ⟨-, c, i, hc, hi, -⟩ := indexOf_eq_some h
  exact ⟨i.retention, by simp [buckets, hc, hi]⟩

theorem configured_tenant (t : Tenancy) : ∃ c ∈ t.tenants, t.configured t.tenant = some c := by
  have hsome : (t.tenants.find? fun c => c.id == t.tenant).isSome := by
    rw [List.find?_isSome]
    exact ⟨t.tenants.head t.tenants_ne_nil, List.head_mem _, by simp [tenant]⟩
  obtain ⟨c, hc⟩ := Option.isSome_iff_exists.mp hsome
  exact ⟨c, List.mem_of_find?_eq_some hc, hc⟩

theorem named_defaultBuckets (t : Tenancy) :
    t.defaultBuckets.buckets ≠ [] ∧ ∀ x ∈ t.defaultBuckets.buckets, x.name ≠ [] := by
  obtain ⟨c, hmem, hc⟩ := t.configured_tenant
  obtain ⟨i, hi⟩ := List.exists_mem_of_ne_nil _ (t.checked_tenants.2 c hmem).2.1
  obtain ⟨d, hd⟩ := defaultIndexOf_isSome hc hi
  obtain ⟨b, hb⟩ := buckets_of_indexOf (indexOf_default hd)
  rw [defaultBuckets, hd, Option.bind_some, hb, Option.getD_some]
  exact named_of_buckets hb

/-- An index a record is sent to is one of the tenant. -/
theorem validIdent_of_routeIn {asked : Option Text}
    (h : t.routeIn tenant asked = .known index ∨ t.routeIn tenant asked = .defaulted index) :
    validIdent index = true := by
  unfold routeIn at h
  split at h
  · next c default hc hd =>
    have hdefault := validIdent_of_indexOf (indexOf_default hd)
    have hcheck := checkIndexes_eq_ok (t.checked_tenants.2 c (mem_of_configured hc)).2.2
    split at h
    · rcases h with h | h
      · rwa [← Route.known.inj h]
      · cases h
    · split at h
      · next i hi =>
        rcases h with h | h
        · rw [← Route.known.inj h]
          exact (hcheck i (List.mem_of_find?_eq_some hi)).1
        · cases h
      · split at h
        · rcases h with h | h
          · cases h
          · rwa [← Route.defaulted.inj h]
        · rcases h with h | h <;> cases h
  · rcases h with h | h <;> cases h

end Tenancy

/-! ## Routing twice -/

namespace Tenancy

variable {t : Tenancy} {showFloat : UInt64 → Text} {r : LogRecord} {key tenant chosen : Text}

theorem ne_attrIndex_of_mem_filter {a : Attr} {as : List Attr}
    (h : a ∈ as.filter fun a => a.key != key && a.key != attrIndex) : a.key ≠ attrIndex := by
  have := (List.mem_filter.mp h).2
  simp only [Bool.and_eq_true, bne_iff_ne] at this
  exact this.2

/-- Rewriting a record to its index keeps its tenant. -/
theorem tenantOf_placed (hkey : key ≠ attrTenant) :
    t.tenantOf (t.placed r key tenant chosen) = t.tenantOf r := by
  have hfind : (t.placed r key tenant chosen).attributes.find? (fun a => a.key == attrTenant)
      = r.attributes.find? (fun a => a.key == attrTenant) := by
    have hkept : (r.attributes.filter fun a => a.key != key && a.key != attrIndex).find?
        (fun a => a.key == attrTenant) = r.attributes.find? (fun a => a.key == attrTenant) := by
      rw [List.find?_filter]
      refine congrFun (congrArg _ (funext fun a => ?_)) _
      by_cases ha : a.key = attrTenant
      · have hne : attrTenant ≠ attrIndex := by decide
        simp [ha, hne, hkey.symm]
      · simp [ha]
    have hlast : ([⟨attrIndex, .str chosen⟩] : List Attr).find? (fun a => a.key == attrTenant)
        = none := by
      simp [show attrIndex ≠ attrTenant by decide]
    simp only [placed]
    split
    · exact hkept
    · rw [List.find?_append, hlast, Option.or_none, hkept]
  simp only [tenantOf, hfind]

/-- The index a rewritten record asks for is the one it was given. -/
theorem requestedIndex_placed :
    requestedIndex showFloat (t.placed r key tenant chosen) attrIndex
      = if some chosen = t.defaultIndexOf tenant then none else some chosen := by
  have hnone : (r.attributes.filter fun a => a.key != key && a.key != attrIndex).find?
      (fun a => a.key == attrIndex || a.key == attrIndex) = none := by
    rw [List.find?_eq_none]
    intro a ha
    simpa using ne_attrIndex_of_mem_filter ha
  simp only [requestedIndex, placed]
  split
  · rw [hnone]
    rfl
  · rw [List.find?_append, hnone]
    simp [AttrValue.toText]

theorem placed_placed :
    t.placed (t.placed r key tenant chosen) attrIndex tenant chosen
      = t.placed r key tenant chosen := by
  have hkept : (r.attributes.filter fun a => a.key != key && a.key != attrIndex).filter
      (fun a => a.key != attrIndex && a.key != attrIndex)
      = r.attributes.filter fun a => a.key != key && a.key != attrIndex := by
    rw [List.filter_eq_self]
    intro a ha
    simpa using ne_attrIndex_of_mem_filter ha
  simp only [placed]
  split
  · simp only [hkept]
  · simp only [List.filter_append, hkept]
    simp

/-- A route that is not refused chose an index the tenant has: asked for by name, or as
the default, it is found again. -/
theorem routeIn_chosen {requested : Option Text}
    (h : t.routeIn tenant requested = .known chosen ∨
      t.routeIn tenant requested = .defaulted chosen) :
    t.routeIn tenant (if some chosen = t.defaultIndexOf tenant then none else some chosen)
      = .known chosen := by
  unfold routeIn at h ⊢
  split at h
  · next c default hc hd =>
    simp only [hd]
    split at h
    · obtain rfl : default = chosen := by simpa using h
      simp
    · split at h
      · next i hi =>
        obtain rfl : i.name = chosen := by simpa using h
        split
        · next heq =>
          split at heq
          · next hdef => rw [Option.some.inj hdef]
          · cases heq
        · next name heq =>
          split at heq
          · cases heq
          · obtain rfl := Option.some.inj heq
            have hsome : (c.indexes.find? fun x => x.name == i.name).isSome := by
              rw [List.find?_isSome]
              exact ⟨i, List.mem_of_find?_eq_some hi, by simp⟩
            obtain ⟨j, hj⟩ := Option.isSome_iff_exists.mp hsome
            have hname : j.name = i.name := by simpa using List.find?_some hj
            simp [hj, hname]
      · split at h
        · obtain rfl : default = chosen := by simpa using h
          simp
        · simp at h
  · simp at h

/-- A record that has been routed routes to the same index again and is not changed. -/
theorem routeRecord_again (hkey : key ≠ attrTenant)
    (h : (t.routeRecord showFloat r key).2 ≠ .refused) :
    ∃ index, t.routeRecord showFloat (t.routeRecord showFloat r key).1 attrIndex
      = ((t.routeRecord showFloat r key).1, .known index) := by
  unfold routeRecord at h
  split at h
  · exact absurd rfl h
  · next tenant htenant =>
    -- in both of the remaining cases the record has been placed
    have hplaced : ∀ chosen, (t.routeRecord showFloat r key).1 = t.placed r key tenant chosen →
        (t.routeIn tenant (requestedIndex showFloat r key) = .known chosen ∨
          t.routeIn tenant (requestedIndex showFloat r key) = .defaulted chosen) →
        t.routeRecord showFloat (t.routeRecord showFloat r key).1 attrIndex
          = ((t.routeRecord showFloat r key).1, .known chosen) := by
      intro chosen hr hroute
      rw [hr, routeRecord, tenantOf_placed hkey, htenant]
      simp only [requestedIndex_placed, routeIn_chosen hroute, placed_placed]
    simp only at h
    split at h
    · next chosen heq =>
      exact ⟨chosen, hplaced chosen (by simp only [routeRecord, htenant, heq]) (.inl heq)⟩
    · next chosen heq =>
      exact ⟨chosen, hplaced chosen (by simp only [routeRecord, htenant, heq]) (.inr heq)⟩
    · next heq => exact absurd heq h

end Tenancy

end LogLess
