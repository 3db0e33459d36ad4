import LogLess.Config

/-!
# The bucket a severity falls in

Both lookups of `LevelBuckets` are binary searches over the list as it is stored. A search
that is looking for the last element of a strictly increasing list finds it; and a search
that finds every element of a list under its own key shows the list to be strictly
increasing, because each probe separates the keys before it from those after it. Hence the
buckets of an index are looked up rightly exactly when they are listed in ascending order,
which `Tenancy::new` does not ask for.
-/

namespace LogLess

namespace LevelBuckets

/-- `LevelBuckets::names_from`. -/
def namesFrom (b : LevelBuckets) (severity : Severity) : List Text :=
  (b.buckets.drop (partitionPoint (fun x => x.minSeverity ≤ severity.num) b.buckets - 1)).map
    LevelBucket.name

/-! ## Binary search -/

section Search

variable {α : Type} {p : α → Bool} {l : List α}

/-- The window of a search, one probe further. -/
theorem search_succ {fuel base size : ℕ} (h : 1 < size) :
    partitionPoint.search p l (fuel + 1) base size
      = partitionPoint.search p l fuel
          (if l[base + size / 2]?.any p then base + size / 2 else base) (size - size / 2) := by
  rw [partitionPoint.search, if_neg (by omega)]

theorem search_bounds (fuel : ℕ) {base size : ℕ} (h : 0 < size) :
    base ≤ partitionPoint.search p l fuel base size ∧
      partitionPoint.search p l fuel base size < base + size := by
  induction fuel generalizing base size with
  | zero =>
    rw [partitionPoint.search]
    omega
  | succ fuel ih =>
    by_cases hsize : 1 < size
    · rw [search_succ hsize]
      obtain ⟨hlow, hhigh⟩ :=
        @ih (if l[base + size / 2]?.any p then base + size / 2 else base) (size - size / 2)
          (by omega)
      split at hlow <;> split at hhigh <;> split <;> simp_all <;> omega
    · rw [partitionPoint.search, if_pos (by omega)]
      omega

/-- Where everything behind the window fails the test and its first element passes it, the
search ends at an element that passes with none behind it that does. -/
theorem search_last (hmono : ∀ i j : ℕ, i ≤ j → l[j]?.any p = true → l[i]?.any p = true)
    (fuel : ℕ) {base size : ℕ} (hfuel : size ≤ fuel) (hpos : 0 < size)
    (hbase : l[base]?.any p = true)
    (hpast : ∀ j : ℕ, base + size ≤ j → l[j]?.any p = false) :
    l[partitionPoint.search p l fuel base size]?.any p = true ∧
      ∀ j : ℕ, partitionPoint.search p l fuel base size < j → l[j]?.any p = false := by
  induction fuel generalizing base size with
  | zero => omega
  | succ fuel ih =>
    by_cases hsize : 1 < size
    · rw [search_succ hsize]
      by_cases hmid : l[base + size / 2]?.any p = true
      · rw [if_pos hmid]
        apply ih (by omega) (by omega) hmid
        intro j hj
        exact hpast j (by omega)
      · rw [if_neg hmid]
        apply ih (by omega) (by omega) hbase
        intro j hj
        by_contra hpass
        exact hmid (hmono _ j (by omega) (by simpa using hpass))
    · rw [partitionPoint.search, if_pos (by omega)]
      refine ⟨hbase, fun j hj => hpast j (by omega)⟩

/-- A search that finds each element of a part of its window under its own key: there the
keys are strictly increasing. -/
theorem lt_of_search_eq {κ : Type} [LinearOrder κ] {key : α → κ} (fuel : ℕ) {base size top : ℕ} (hfuel : size ≤ fuel)
    (htop : top ≤ base + size)
    (hfind : ∀ i x, l[i]? = some x → base ≤ i → i < top →
      partitionPoint.search (fun y => key y ≤ key x) l fuel base size = i)
    {i j : ℕ} {x y : α} (hx : l[i]? = some x) (hy : l[j]? = some y) (hi : base ≤ i) (hij : i < j)
    (hj : j < top) : key x < key y := by
  induction fuel generalizing base size top i j x y with
  | zero => omega
  | succ fuel ih =>
    have hsize : 1 < size := by omega
    -- a key of the left part is below that of the probe, one of the right part is not
    have hprobe : ∀ k z, l[k]? = some z → base ≤ k → k < top →
        ((l[base + size / 2]?.any fun y => key y ≤ key z) = true ↔ base + size / 2 ≤ k) := by
      intro k z hz hk hktop
      have hfound := hfind k z hz hk hktop
      rw [search_succ hsize] at hfound
      constructor
      · intro hright
        rw [if_pos hright] at hfound
        have := (@search_bounds α (fun y => key y ≤ key z) l fuel (base + size / 2)
          (size - size / 2) (by omega)).1
        omega
      · intro hle
        by_contra hleft
        rw [if_neg hleft] at hfound
        have hbounds := (@search_bounds α (fun y => key y ≤ key z) l fuel base
          (size - size / 2) (by omega)).2
        -- the left window ends with the probe at the latest, and the probe finds itself
        have hk' : k = base + size / 2 := by omega
        rw [← hk', hz] at hleft
        simp at hleft
    have hstep : ∀ k z, l[k]? = some z → base ≤ k → k < top →
        partitionPoint.search (fun y => key y ≤ key z) l fuel
          (if base + size / 2 ≤ k then base + size / 2 else base) (size - size / 2) = k := by
      intro k z hz hk hktop
      have hfound := hfind k z hz hk hktop
      rw [search_succ hsize] at hfound
      simpa only [hprobe k z hz hk hktop] using hfound
    by_cases hleft : j < base + size / 2
    · refine @ih base (size - size / 2) (min top (base + size / 2)) (by omega) (by omega) ?_
        i j x y hx hy hi hij (by omega)
      intro k z hz hk hktop
      have hfound := hstep k z hz hk (by omega)
      rwa [if_neg (by omega)] at hfound
    · by_cases hright : base + size / 2 ≤ i
      · refine @ih (base + size / 2) (size - size / 2) top (by omega) (by omega) ?_
          i j x y hx hy hright hij hj
        intro k z hz hk hktop
        have hfound := hstep k z hz (by omega) hktop
        rwa [if_pos hk] at hfound
      · -- the probe lies between them
        have hlength := (List.getElem?_eq_some_iff.mp hy).1
        have hm : l[base + size / 2]? = some l[base + size / 2] :=
          List.getElem?_eq_getElem (by omega)
        have hx' := hprobe i x hx hi (by omega)
        have hy' := hprobe j y hy (by omega) hj
        simp only [hm, Option.any_some, decide_eq_true_eq] at hx' hy'
        calc key x < key l[base + size / 2] := not_le.mp fun h => hright (hx'.mp h)
          _ ≤ key y := hy'.mpr (by omega)

/-- A search that has moved has moved to an element that passes. -/
theorem search_passes (fuel : ℕ) {base size : ℕ} :
    partitionPoint.search p l fuel base size = base ∨
      l[partitionPoint.search p l fuel base size]?.any p = true := by
  induction fuel generalizing base size with
  | zero =>
    rw [partitionPoint.search]
    exact .inl rfl
  | succ fuel ih =>
    by_cases hsize : 1 < size
    · rw [search_succ hsize]
      by_cases hmid : l[base + size / 2]?.any p = true
      · rw [if_pos hmid]
        rcases @ih (base + size / 2) (size - size / 2) with hsame | hpass
        · right
          rwa [hsame]
        · exact .inr hpass
      · rw [if_neg hmid]
        exact ih
    · rw [partitionPoint.search, if_pos (by omega)]
      exact .inl rfl

/-- The element in front of the partition point is where the search ends. -/
theorem partitionPoint_sub_one :
    partitionPoint p l - 1 = partitionPoint.search p l l.length 0 l.length := by
  unfold partitionPoint
  simp only
  split
  · omega
  · next hfail =>
    rcases @search_passes α p l l.length 0 l.length with hzero | hpass
    · omega
    · exact absurd hpass hfail

end Search

/-! ## Which bucket is the right one -/

/-- The bucket owns the severity: it has the greatest `min_severity` not above it. -/
def Owns (b : LevelBuckets) (x : LevelBucket) (severity : Severity) : Prop :=
  x ∈ b.buckets ∧ x.minSeverity ≤ severity.num ∧
    ∀ y ∈ b.buckets, y.minSeverity ≤ severity.num → y.minSeverity ≤ x.minSeverity

/-- Every severity is looked up in the bucket that owns it, and a read of a severity and up
opens the buckets that own one of these. -/
structure LooksUp (b : LevelBuckets) : Prop where
  bucket : ∀ severity, ∃ x, b.bucketFor severity = some x ∧ b.Owns x severity
  names : ∀ (severity : Severity) (name : Text), name ∈ b.namesFrom severity ↔
    ∃ x s, severity.num ≤ s.num ∧ b.Owns x s ∧ x.name = name

/-- The buckets are listed from the lowest severity to the highest. -/
def Ascending (b : LevelBuckets) : Prop :=
  b.buckets.Pairwise fun x y => x.minSeverity < y.minSeverity

/-- What an accepted list covers: there is a bucket for severity 0, and no severity is
given twice. -/
structure Covers (bs : List LevelBucket) : Prop where
  zero : ∃ x ∈ bs, x.minSeverity = 0
  distinct : (bs.map LevelBucket.minSeverity).Nodup

variable {b : LevelBuckets} {severity : Severity} {i j : ℕ} {x y : LevelBucket}

/-- Where the search for a severity ends. -/
def index (b : LevelBuckets) (severity : Severity) : ℕ :=
  partitionPoint.search (fun x : LevelBucket => x.minSeverity.toNat ≤ severity.num.toNat)
    b.buckets b.buckets.length 0 b.buckets.length

theorem partitionPoint_eq_index :
    partitionPoint (fun x : LevelBucket => x.minSeverity ≤ severity.num) b.buckets - 1
      = b.index severity := by
  rw [partitionPoint_sub_one, index]
  simp only [UInt8.le_iff_toNat_le]

theorem bucketFor_eq : b.bucketFor severity = b.buckets[b.index severity]? := by
  rw [bucketFor, partitionPoint_eq_index]

theorem namesFrom_eq :
    b.namesFrom severity = (b.buckets.drop (b.index severity)).map LevelBucket.name := by
  rw [namesFrom, partitionPoint_eq_index]

theorem sharedSeverity_eq_none {bs : List LevelBucket} (h : sharedSeverity bs = none)
    (hsorted : bs.Pairwise fun x y => x.minSeverity.toNat ≤ y.minSeverity.toNat) :
    bs.Pairwise fun x y => x.minSeverity < y.minSeverity := by
  fun_induction sharedSeverity bs with
  | case1 a b rest heq => cases h
  | case2 a b rest hne ih =>
    obtain ⟨ha, hrest⟩ := List.pairwise_cons.mp hsorted
    have hpairs := ih h hrest
    have hab : a.minSeverity < b.minSeverity := by
      have hle : a.minSeverity ≤ b.minSeverity := UInt8.le_iff_toNat_le.mpr (ha b (by simp))
      exact UInt8.lt_of_le_of_ne hle hne
    refine List.pairwise_cons.mpr ⟨?_, hpairs⟩
    intro c hc
    rcases List.mem_cons.mp hc with rfl | hc
    · exact hab
    · exact UInt8.lt_trans hab ((List.pairwise_cons.mp hpairs).1 c hc)
  | case3 bs hshort =>
    match bs with
    | [] => exact List.Pairwise.nil
    | [a] => exact List.pairwise_singleton _ a
    | a :: b :: rest => exact absurd rfl (hshort a b rest)

/-- What `LevelBuckets::new` accepts covers every severity, in whatever order it is listed. -/
theorem covers_of_new {bs : List LevelBucket} (h : LevelBuckets.new bs = .ok b) : Covers bs := by
  have hperm := Lists.perm_sortByKey (fun b : LevelBucket => b.minSeverity.toNat) bs
  have hsorted := Lists.pairwise_sortByKey (fun b : LevelBucket => b.minSeverity.toNat) bs
  unfold LevelBuckets.new at h
  simp only at h
  generalize Lists.sortByKey (fun b : LevelBucket => b.minSeverity.toNat) bs = sorted
    at h hperm hsorted
  split at h
  · cases h
  · next first rest =>
    split at h
    · cases h
    · next hzero =>
      split at h
      · cases h
      · cases h
      · next hshared _ =>
        have hlt := sharedSeverity_eq_none hshared hsorted
        refine ⟨⟨first, hperm.mem_iff.mp (by simp), by simpa using hzero⟩, ?_⟩
        rw [← (hperm.map _).nodup_iff]
        exact (List.pairwise_map.mpr hlt).imp UInt8.ne_of_lt

/-- The owner of a severity is the only one. -/
theorem Owns.unique (hc : Covers b.buckets) (hx : b.Owns x severity) (hy : b.Owns y severity) :
    x = y := by
  refine List.inj_on_of_nodup_map hc.distinct hx.1 hy.1 ?_
  exact UInt8.le_antisymm (hy.2.2 x hx.1 hx.2.1) (hx.2.2 y hy.1 hy.2.1)

theorem owns_self (hx : x ∈ b.buckets) : b.Owns x ⟨x.minSeverity⟩ :=
  ⟨hx, UInt8.le_refl _, fun _ _ h => h⟩

/-- If each bucket is found under its own severity, the buckets are in ascending order. -/
theorem ascending_of_looksUp (hc : Covers b.buckets)
    (h : ∀ severity, ∃ x, b.bucketFor severity = some x ∧ b.Owns x severity) : b.Ascending := by
  rw [Ascending, List.pairwise_iff_getElem]
  intro i j hi hj hij
  rw [UInt8.lt_iff_toNat_lt]
  refine @lt_of_search_eq LevelBucket b.buckets ℕ _ (fun x => x.minSeverity.toNat)
    b.buckets.length 0 b.buckets.length b.buckets.length le_rfl (by omega) ?_ i j _ _
    (List.getElem?_eq_getElem hi) (List.getElem?_eq_getElem hj) (by omega) hij hj
  intro k z hz _ hk
  obtain ⟨x, hx, howns⟩ := h ⟨z.minSeverity⟩
  obtain rfl := howns.unique hc (owns_self (List.mem_of_getElem? hz))
  -- the bucket is found, and it is listed once
  rw [bucketFor_eq, ← hz] at hx
  exact ((List.getElem?_inj hk (hc.distinct.of_map _)).mp hx.symm).symm

theorem Ascending.lt_of_lt (ha : b.Ascending) (hx : b.buckets[i]? = some x)
    (hy : b.buckets[j]? = some y) (hij : i < j) : x.minSeverity < y.minSeverity := by
  obtain ⟨hi, rfl⟩ := List.getElem?_eq_some_iff.mp hx
  obtain ⟨hj, rfl⟩ := List.getElem?_eq_some_iff.mp hy
  exact List.pairwise_iff_getElem.mp ha i j hi hj hij

/-- In ascending order the search ends at the last bucket that does not start above the
severity. -/
theorem Ascending.index_spec (ha : b.Ascending) (hc : Covers b.buckets) (severity : Severity) :
    ∃ x, b.buckets[b.index severity]? = some x ∧ x.minSeverity ≤ severity.num ∧
      ∀ j y, b.buckets[j]? = some y → b.index severity < j → severity.num < y.minSeverity := by
  have hany : ∀ i : ℕ, (b.buckets[i]?.any fun x : LevelBucket =>
      x.minSeverity.toNat ≤ severity.num.toNat) = true ↔
        ∃ x, b.buckets[i]? = some x ∧ x.minSeverity ≤ severity.num := by
    intro i
    cases b.buckets[i]? with
    | none => simp
    | some x => simp [UInt8.le_iff_toNat_le]
  obtain ⟨z, hz, hzero⟩ := hc.zero
  obtain ⟨k, hk, rfl⟩ := List.mem_iff_getElem.mp hz
  have hlast := @search_last LevelBucket
    (fun x => x.minSeverity.toNat ≤ severity.num.toNat) b.buckets ?_ b.buckets.length 0
    b.buckets.length le_rfl (by omega) ?_ ?_
  · obtain ⟨x, hx, hle⟩ := (hany _).mp hlast.1
    refine ⟨x, hx, hle, fun j y hy hj => ?_⟩
    have hfail := hlast.2 j hj
    rw [hy, Option.any_some, decide_eq_false_iff_not] at hfail
    exact UInt8.lt_iff_toNat_lt.mpr (by omega)
  · -- what passes has only what passes before it
    intro i j hij hj
    obtain ⟨y, hy, hle⟩ := (hany j).mp hj
    have hlength := (List.getElem?_eq_some_iff.mp hy).1
    have hi : b.buckets[i]? = some b.buckets[i] := List.getElem?_eq_getElem (by omega)
    refine (hany i).mpr ⟨_, hi, ?_⟩
    rcases Nat.eq_or_lt_of_le hij with rfl | hij
    · rwa [Option.some.inj (hi.symm.trans hy)]
    · exact UInt8.le_trans (UInt8.le_of_lt (ha.lt_of_lt hi hy hij)) hle
  · -- the first bucket is the one that starts at 0
    have hfirst : b.buckets[0]? = some b.buckets[0] := List.getElem?_eq_getElem (by omega)
    refine (hany 0).mpr ⟨_, hfirst, ?_⟩
    rcases Nat.eq_zero_or_pos k with rfl | hpos
    · rw [hzero]
      exact UInt8.zero_le
    · have hlt := ha.lt_of_lt hfirst (List.getElem?_eq_getElem hk) hpos
      rw [hzero] at hlt
      exact absurd hlt UInt8.not_lt_zero
  · intro j hj
    rw [List.getElem?_eq_none (by omega), Option.any_none]

/-- In ascending order both lookups are right. -/
theorem Ascending.looksUp (ha : b.Ascending) (hc : Covers b.buckets) : b.LooksUp := by
  have howns : ∀ severity, ∃ x, b.buckets[b.index severity]? = some x ∧ b.Owns x severity := by
    intro severity
    obtain ⟨x, hx, hle, hpast⟩ := ha.index_spec hc severity
    refine ⟨x, hx, List.mem_of_getElem? hx, hle, fun y hy hys => ?_⟩
    obtain ⟨j, hj⟩ := List.mem_iff_getElem?.mp hy
    rcases Nat.lt_trichotomy j (b.index severity) with hlt | rfl | hgt
    · exact UInt8.le_of_lt (ha.lt_of_lt hj hx hlt)
    · rw [Option.some.inj (hj.symm.trans hx)]
      exact UInt8.le_refl _
    · exact absurd (hpast j y hj hgt) (UInt8.not_lt.mpr hys)
  refine ⟨fun severity => ?_, fun severity name => ?_⟩
  · obtain ⟨x, hx, hown⟩ := howns severity
    exact ⟨x, by rw [bucketFor_eq, hx], hown⟩
  · obtain ⟨x₀, hx₀, hle₀, hpast⟩ := ha.index_spec hc severity
    rw [namesFrom_eq, List.mem_map]
    constructor
    · rintro ⟨x, hx, rfl⟩
      obtain ⟨j, hj⟩ := List.mem_iff_getElem?.mp hx
      rw [List.getElem?_drop] at hj
      rcases Nat.eq_zero_or_pos j with rfl | hpos
      · obtain ⟨y, hy, hown⟩ := howns severity
        obtain rfl : y = x := Option.some.inj (hy.symm.trans hj)
        exact ⟨y, severity, UInt8.le_refl _, hown, rfl⟩
      · have hlt := hpast _ x hj (by omega)
        exact ⟨x, ⟨x.minSeverity⟩, UInt8.le_of_lt hlt, owns_self (List.mem_of_getElem? hj), rfl⟩
    · rintro ⟨x, s, hs, hown, rfl⟩
      obtain ⟨j, hj⟩ := List.mem_iff_getElem?.mp hown.1
      -- the owner of a higher severity is not listed before that of a lower one
      have hle : b.index severity ≤ j := by
        by_contra hbefore
        have hlt := ha.lt_of_lt hj hx₀ (by omega)
        have hgreatest := hown.2.2 x₀ (List.mem_of_getElem? hx₀) (UInt8.le_trans hle₀ hs)
        exact absurd hlt (UInt8.not_lt.mpr hgreatest)
      refine ⟨x, List.mem_iff_getElem?.mpr ⟨j - b.index severity, ?_⟩, rfl⟩
      rw [List.getElem?_drop, ← hj]
      congr 1
      omega

end LevelBuckets

/-! ## The buckets of a tenancy -/

theorem checkIndexes_covers {names : List Text} {is : List IndexConfig}
    (h : checkIndexes names is = .ok ()) : ∀ i ∈ is, LevelBuckets.Covers i.retention.buckets := by
  induction is generalizing names with
  | nil => simp
  | cons i is ih =>
    unfold checkIndexes at h
    split at h
    · cases h
    · split at h
      · cases h
      · split at h
        · cases h
        · next hnew =>
          intro j hj
          rcases List.mem_cons.mp hj with rfl | hj
          · exact LevelBuckets.covers_of_new hnew
          · exact ih h j hj

/-- The buckets of an index of a tenancy are looked up rightly exactly when the
configuration lists them in ascending order. -/
theorem Tenancy.looksUp_iff_ascending (t : Tenancy) {c : TenantConfig} {i : IndexConfig}
    (hc : c ∈ t.tenants) (hi : i ∈ c.indexes) :
    i.retention.LooksUp ↔ i.retention.Ascending := by
  have hcovers := checkIndexes_covers (t.checked_tenants.2 c hc).2.2 i hi
  exact ⟨fun h => LevelBuckets.ascending_of_looksUp hcovers h.bucket, fun h => h.looksUp hcovers⟩

/-- One tenant `default` with one index `default`: `Tenancy::single`. -/
def singleTenants (b : LevelBuckets) : List TenantConfig :=
  [⟨defaultTenant, .default, [⟨defaultIndex, b⟩]⟩]

theorem standard_checked : checkTenancy (singleTenants .standard) "node-a".toList = .ok () := by
  decide

theorem looksUp_standard : LevelBuckets.standard.LooksUp := by
  have hascending : LevelBuckets.standard.Ascending := by
    unfold LevelBuckets.Ascending
    decide
  have htenant : (⟨defaultTenant, .default, [⟨defaultIndex, .standard⟩]⟩ : TenantConfig) ∈
      singleTenants .standard := List.mem_singleton.mpr rfl
  have h := Tenancy.looksUp_iff_ascending ⟨_, _, standard_checked⟩ htenant
    (List.mem_singleton.mpr rfl)
  exact h.mpr hascending

/-- Buckets listed as they come to mind: errors, everything, warnings. -/
def errorsFirst : LevelBuckets where
  buckets :=
    [⟨"error".toList, 17, 90 * 24 * 3600 * 10 ^ 9⟩, ⟨"trace".toList, 0, 6 * 3600 * 10 ^ 9⟩,
      ⟨"warn".toList, 13, 14 * 24 * 3600 * 10 ^ 9⟩]

/-- `errorsFirst` is accepted, and an error is put with the warnings. -/
theorem errorsFirst_misses_errors :
    checkTenancy (singleTenants errorsFirst) "node-a".toList = .ok () ∧
      ¬ ∃ x, errorsFirst.bucketFor ⟨17⟩ = some x ∧ errorsFirst.Owns x ⟨17⟩ := by
  refine ⟨by decide, ?_⟩
  rintro ⟨x, hx, hown⟩
  have hfound : errorsFirst.bucketFor ⟨17⟩
      = some ⟨"warn".toList, 13, 14 * 24 * 3600 * 10 ^ 9⟩ := by decide
  obtain rfl := Option.some.inj (hfound.symm.trans hx)
  have hgreatest := hown.2.2 ⟨"error".toList, 17, 90 * 24 * 3600 * 10 ^ 9⟩
    (by simp [errorsFirst]) (by decide)
  exact absurd hgreatest (by decide)

end LogLess
