import LogLess.Lib.Runs
import LogLess.Relief.Budget

/-!
# Relief deletes no more than it must

A pass measures what is used by the rows of the catalog, so the measure is right as long as
each row has its file. A pass that is not cut short keeps it so: the rows of the files it
deletes are forgotten in the same pass. A crash between the deletions and the transaction
that forgets them leaves rows without files, and no later pass takes them back: they count
as used, and later passes delete more than they must.
-/

namespace LogLess.Relief

/-! ## Specification -/

/-- The bytes really there: the WAL, and the catalogued files that exist. -/
def Disk.present (d : Disk) : ℕ :=
  d.walBytes + (d.catalog.map fun f => (d.fs.size f.path).getD 0).sum

/-- Each file that the reclaim of a pass deletes, it deletes while the bytes there exceed
its target. -/
def Pass.Frugal (store : Path) (p : Pass) (d : Disk) : Prop :=
  ∀ i path, (p.effects store d)[i]? = some (.reclaim path) →
    (p.usage store d).target p.wm < (d.applyAll ((p.effects store d).take i)).present

/-! ## Histories -/

inductive Event where
  /-- A merge or a compaction writes a file and its row. -/
  | commit (f : FileEntry)
  /-- A compaction forgets the rows of the files it has replaced. -/
  | forget (paths : List Path)
  /-- A file without a row is deleted. -/
  | unlink (path : Path)
  /-- The WAL grows or is merged. -/
  | wal (bytes : ℕ)
  /-- A pass, cut short by a crash after `stop` of its effects. -/
  | pass (p : Pass) (stop : Option ℕ)

/-- A file written, with the directories above it. -/
def Fs.write (fs : Fs) (path : Path) (bytes : ℕ) : Fs where
  dirs := fs.dirs ++ path.inits.dropLast.filter fun d => !fs.dirs.contains d
  files := Assoc.insert fs.files path bytes

namespace Disk

variable (store : Path)

def step (d : Disk) : Event → Disk
  | .commit f =>
    { d with
      fs := d.fs.write f.path f.bytes
      catalog := (d.catalog.filter fun g => g.path != f.path) ++ [f] }
  | .forget paths => d.apply (.forget paths)
  | .unlink path => { d with fs := d.fs.apply (.file path) }
  | .wal bytes => { d with walBytes := bytes }
  | .pass p stop =>
    let es := p.effects store d
    d.applyAll (es.take (stop.getD es.length))

/-- An empty store. -/
def empty : Disk := ⟨⟨[store], []⟩, [], 0⟩

/-- Each row has its file, of the size it says; a row of no bytes needs none. -/
def whole (d : Disk) : Bool := d.catalog.all fun f => (d.fs.size f.path).getD 0 == f.bytes

/-- The condition on the steps of a history: a committed file is where its key says, only a
file without a row is deleted beside the passes, a pass can remove the directories that are
up and write its catalog, and a crash leaves no row without its file. -/
def ok (d : Disk) : Event → Bool
  | .commit f =>
    validIdent f.key.tenant && validIdent f.key.index && validIdent f.key.node
      && f.key.bucket != [] && decide (f.key.epochHour < 2 ^ 63)
      && f.path.dropLast == store ++ f.key.dir
  | .unlink path => d.catalog.all fun f => f.path != path
  | .pass p stop =>
    Clears p.stuck p.pinned p.tenancy p.now (d.fs.levelsOf store) d.fs && !p.catalogFails
      && stop.all fun n => (d.applyAll ((p.effects store d).take n)).whole
  | _ => true

end Disk

/-! ## The level directories -/

variable {store : Path}

theorem Fs.mem_children {fs : Fs} {dir p : Path} {pre : String} {value : Text}
    (h : (p, value) ∈ fs.children dir pre) : p = dir ++ [pre.toList ++ value] := by
  rw [Fs.children, List.mem_insertionSort] at h
  obtain ⟨q, -, hq⟩ := List.mem_filterMap.mp h
  cases hlast : q.getLast? with
  | none =>
    rw [hlast] at hq
    cases hq
  | some name =>
    simp only [hlast] at hq
    split at hq
    · next hdir =>
      obtain ⟨v, hv, heq⟩ := Option.map_eq_some_iff.mp hq
      obtain ⟨rfl, rfl⟩ := Prod.mk.inj heq
      rw [List.isPrefixOf?_eq_some_iff_append_eq] at hv
      rw [← List.dropLast_append_getLast? name hlast, hdir, hv]
    · cases hq

theorem Fs.mem_dirs_of_mem_children {fs : Fs} {dir p : Path} {pre : String} {value : Text}
    (h : (p, value) ∈ fs.children dir pre) : p ∈ fs.dirs := by
  rw [Fs.children, List.mem_insertionSort] at h
  obtain ⟨q, hmem, hq⟩ := List.mem_filterMap.mp h
  split at hq
  · split at hq
    · obtain ⟨v, -, heq⟩ := Option.map_eq_some_iff.mp hq
      rw [← (Prod.mk.inj heq).1]
      exact hmem
    · cases hq
  · cases hq

theorem Fs.mem_dirs_of_mem_levelsOf {fs : Fs} {level : Path × PartitionKey}
    (h : level ∈ fs.levelsOf store) : level.1 ∈ fs.dirs := by
  unfold levelsOf at h
  split at h
  on_goal 2 => cases h
  obtain ⟨⟨hourDir, levels⟩, hhour, hlevel⟩ := List.mem_flatMap.mp h
  obtain ⟨⟨tenantDir, tenant⟩, -, hhour⟩ := List.mem_flatMap.mp hhour
  simp only at hhour
  split at hhour
  · cases hhour
  · obtain ⟨⟨indexDir, index⟩, -, hhour⟩ := List.mem_flatMap.mp hhour
    simp only at hhour
    split at hhour
    · cases hhour
    · obtain ⟨⟨dir, hour⟩, -, hhour⟩ := List.mem_filterMap.mp hhour
      obtain ⟨epochHour, -, heq⟩ := Option.map_eq_some_iff.mp hhour
      obtain ⟨rfl, rfl⟩ := Prod.mk.inj heq
      obtain ⟨⟨levelDir, value⟩, hchild, hlevel⟩ := List.mem_filterMap.mp hlevel
      simp only at hlevel
      split at hlevel
      · cases hlevel
      · rw [← Option.some.inj hlevel]
        exact Fs.mem_dirs_of_mem_children hchild

/-- The path of a level directory says its key. -/
theorem Fs.mem_levelsOf {fs : Fs} {path : Path} {key : PartitionKey}
    (h : (path, key) ∈ fs.levelsOf store) :
    ∃ hour, parseHour hour = some key.epochHour ∧
      path = store ++ ["tenant=".toList ++ key.tenant, "index=".toList ++ key.index,
        "hour=".toList ++ hour, "level=".toList ++ key.bucket] := by
  unfold levelsOf at h
  split at h
  on_goal 2 => cases h
  obtain ⟨⟨hourDir, levels⟩, hhour, hlevel⟩ := List.mem_flatMap.mp h
  obtain ⟨⟨tenantDir, tenant⟩, htenant, hhour⟩ := List.mem_flatMap.mp hhour
  simp only at hhour
  split at hhour
  · cases hhour
  · obtain ⟨⟨indexDir, index⟩, hindex, hhour⟩ := List.mem_flatMap.mp hhour
    simp only at hhour
    split at hhour
    · cases hhour
    · obtain ⟨⟨dir, hour⟩, hdir, hhour⟩ := List.mem_filterMap.mp hhour
      obtain ⟨epochHour, hparse, heq⟩ := Option.map_eq_some_iff.mp hhour
      obtain ⟨rfl, rfl⟩ := Prod.mk.inj heq
      obtain ⟨⟨levelDir, level⟩, hchild, hlevel⟩ := List.mem_filterMap.mp hlevel
      simp only at hlevel
      split at hlevel
      · cases hlevel
      · obtain ⟨rfl, rfl⟩ := Prod.mk.inj (Option.some.inj hlevel)
        refine ⟨hour, hparse, ?_⟩
        rw [Fs.mem_children hchild, Fs.mem_children hdir, Fs.mem_children hindex,
          Fs.mem_children htenant]
        simp

/-- A file where its key says. -/
def FileEntry.Placed (store : Path) (f : FileEntry) : Prop :=
  f.key.Valid ∧ ∃ name, f.path = store ++ f.key.dir ++ [name]

/-- A row in an expired directory is among the rows that are checked. -/
theorem FileEntry.Placed.isIn {f : FileEntry} (h : f.Placed store) {fs : Fs} {path : Path}
    {key : PartitionKey} (hlevel : (path, key) ∈ fs.levelsOf store) (hpre : path <+: f.path) :
    f.isIn key = true := by
  obtain ⟨hvalid, name, hpath⟩ := h
  obtain ⟨hour, hparse, rfl⟩ := Fs.mem_levelsOf hlevel
  rw [hpath, List.append_assoc, List.prefix_append_right_inj] at hpre
  obtain ⟨rest, hrest⟩ := hpre
  simp only [PartitionKey.dir, PartitionKey.levelDir, List.cons_append, List.nil_append,
    List.cons.injEq, List.append_cancel_left_eq] at hrest
  obtain ⟨htenant, hindex, hhour, hbucket, -⟩ := hrest
  have hepoch : key.epochHour = f.key.epochHour := by
    rw [hhour, parseHour_formatHour hvalid.epochHour_lt] at hparse
    exact (Option.some.inj hparse).symm
  simp [FileEntry.isIn, htenant, hindex, hbucket, hepoch]

/-! ## A whole disk -/

/-- The rows have different paths, in the directories of their keys, and their files. -/
structure Disk.Sound (store : Path) (d : Disk) : Prop where
  nodup : (d.catalog.map FileEntry.path).Nodup
  placed : ∀ f ∈ d.catalog, f.Placed store
  whole : ∀ f ∈ d.catalog, (d.fs.size f.path).getD 0 = f.bytes

namespace Disk

variable {d : Disk}

theorem whole_iff : d.whole = true ↔ ∀ f ∈ d.catalog, (d.fs.size f.path).getD 0 = f.bytes := by
  simp [whole]

theorem applyAll_append (d : Disk) (es es' : List Effect) :
    d.applyAll (es ++ es') = (d.applyAll es).applyAll es' := List.foldl_append

theorem applyAll_remove (d : Disk) (rs : List Removal) :
    d.applyAll (rs.map .remove) = { d with fs := d.fs.applyAll rs } := by
  induction rs generalizing d with
  | nil => rfl
  | cons r rs ih =>
    rw [List.map_cons]
    exact ih (d.apply (.remove r))

theorem applyAll_reclaim (d : Disk) (paths : List Path) :
    d.applyAll (paths.map .reclaim) = { d with fs := d.fs.applyAll (paths.map .file) } := by
  induction paths generalizing d with
  | nil => rfl
  | cons p paths ih =>
    rw [List.map_cons]
    exact ih (d.apply (.reclaim p))

/-- A pass only forgets rows. -/
theorem catalog_applyAll (d : Disk) (es : List Effect) :
    (d.applyAll es).catalog.Sublist d.catalog ∧ (d.applyAll es).walBytes = d.walBytes := by
  induction es generalizing d with
  | nil => exact ⟨List.Sublist.refl _, rfl⟩
  | cons e es ih =>
    obtain ⟨hsub, hwal⟩ := ih (d.apply e)
    cases e with
    | remove r => exact ⟨hsub, hwal⟩
    | forgetIn keys => exact ⟨hsub.trans List.filter_sublist, hwal⟩
    | reclaim path => exact ⟨hsub, hwal⟩
    | forget paths => exact ⟨hsub.trans List.filter_sublist, hwal⟩

theorem Sound.of_sublist (h : d.Sound store) {d' : Disk} (hsub : d'.catalog.Sublist d.catalog)
    (hwhole : ∀ f ∈ d'.catalog, (d'.fs.size f.path).getD 0 = f.bytes) : d'.Sound store where
  nodup := h.nodup.sublist (hsub.map _)
  placed := fun f hf => h.placed f (hsub.subset hf)
  whole := hwhole

/-- On a sound disk the measure is what is there. -/
theorem Sound.used_measure (h : d.Sound store) (budget : ℕ) :
    (d.measure budget).used = d.present := by
  have hsum : d.catalog.map (fun f => (d.fs.size f.path).getD 0)
      = d.catalog.map FileEntry.bytes := List.map_congr_left h.whole
  rw [present, hsum]
  rfl

/-- After some of the catalogued files are deleted, the rest of the bytes are there. -/
theorem Sound.present_reclaim (h : d.Sound store) {gone : List FileEntry}
    (hgone : gone.Subperm d.catalog) :
    (d.applyAll ((gone.map FileEntry.path).map .reclaim)).present + (gone.map FileEntry.bytes).sum
      = d.present := by
  rw [applyAll_reclaim]
  obtain ⟨rest, hperm⟩ : ∃ rest, d.catalog.Perm (gone ++ rest) :=
    ⟨_, (List.subperm_append_diff_self_of_count_le
      (fun x _ => List.Subperm.count_le hgone x)).symm⟩
  have hnodup : ((gone ++ rest).map FileEntry.path).Nodup := (hperm.map _).nodup_iff.mp h.nodup
  rw [List.map_append, List.nodup_append] at hnodup
  have hsize : ∀ f : FileEntry, (d.fs.applyAll ((gone.map FileEntry.path).map .file)).size f.path
      = if f.path ∈ gone.map FileEntry.path then none else d.fs.size f.path := by
    intro f
    rw [Fs.size_applyAll]
    simp
  have hfirst : gone.map (fun f =>
      ((d.fs.applyAll ((gone.map FileEntry.path).map .file)).size f.path).getD 0)
      = gone.map fun _ => 0 := by
    refine List.map_congr_left fun f hf => ?_
    rw [hsize, if_pos (List.mem_map.mpr ⟨f, hf, rfl⟩)]
    rfl
  have hrest : rest.map (fun f =>
      ((d.fs.applyAll ((gone.map FileEntry.path).map .file)).size f.path).getD 0)
      = rest.map FileEntry.bytes := by
    refine List.map_congr_left fun f hf => ?_
    have hnot : f.path ∉ gone.map FileEntry.path := fun hmem =>
      hnodup.2.2 _ hmem _ (List.mem_map.mpr ⟨f, hf, rfl⟩) rfl
    rw [hsize, if_neg hnot]
    exact h.whole f (hperm.mem_iff.mpr (List.mem_append_right _ hf))
  rw [← h.used_measure 0]
  simp only [present, measure, DiskUsage.used]
  rw [(hperm.map _).sum_eq, (hperm.map _).sum_eq, List.map_append, List.map_append,
    List.sum_append, List.sum_append, hfirst, hrest]
  simp only [List.map_const', List.sum_replicate, smul_eq_mul, mul_zero]
  omega

end Disk

/-! ## The two halves of a pass -/

namespace Pass

variable {p : Pass} {d : Disk}

/-- When usage is measured the rows of what retention deleted are forgotten. -/
theorem sound_measured (h : d.Sound store)
    (hclear : Clears p.stuck p.pinned p.tenancy p.now (d.fs.levelsOf store) d.fs)
    (hcatalog : p.catalogFails = false) : (p.measured store d).Sound store := by
  have htracks := @tracks_enforcePinned _ _ _ _ false _ _ hclear
  change (p.sweep store d).Tracks d.fs (d.fs.levelsOf store) at htracks
  have hremoved : d.applyAll ((p.sweep store d).removals.map .remove)
      = { d with fs := (p.sweep store d).fs } := by
    rw [Disk.applyAll_remove, ← htracks.replay]
  unfold measured expiry
  simp only [hcatalog, Bool.false_eq_true, or_false]
  rw [Disk.applyAll_append, hremoved]
  split
  · next hnone =>
    -- nothing was reported, so only empty files are gone
    refine h.of_sublist (List.Sublist.refl _) fun f hf => ?_
    show ((p.sweep store d).fs.size f.path).getD 0 = f.bytes
    rw [← h.whole f hf]
    rcases htracks.size f.path with hsame | ⟨hgone, hempty | ⟨e, he, -⟩⟩
    · rw [hsame]
    · rw [hgone, hempty]
      rfl
    · rw [hnone] at he
      cases he
  · refine h.of_sublist List.filter_sublist fun f hf => ?_
    obtain ⟨hmem, hkept⟩ := List.mem_filter.mp hf
    show ((p.sweep store d).fs.size f.path).getD 0 = f.bytes
    rw [← h.whole f hmem]
    rcases htracks.size f.path with hsame | ⟨hgone, hempty | ⟨e, he, hpre⟩⟩
    · rw [hsame]
    · rw [hgone, hempty]
      rfl
    · -- the row is one of those that are checked, and its file is gone
      exfalso
      have hin := (h.placed f hmem).isIn (htracks.expired e he) hpre
      have hkeys : ((p.sweep store d).report.expired.map Expired.key).any f.isIn = true :=
        List.any_eq_true.mpr ⟨e.key, List.mem_map.mpr ⟨e, he, rfl⟩, hin⟩
      rw [Bool.not_eq_true', ← Bool.not_eq_true, List.contains_iff_mem] at hkept
      refine hkept (List.mem_map.mpr ⟨f, List.mem_filter.mpr ⟨hmem, ?_⟩, rfl⟩)
      rw [hkeys, hgone]
      rfl

/-- What the loop of `reclaim_files` deletes: each file while more than the target is used. -/
theorem reclaimLoop_spec {σ : Type} (target : ℕ) (delete : Path → σ → Bool × σ)
    (files : List FileEntry) (used : ℕ) (st : σ) :
    (reclaimLoop store target delete files used st).1.Sublist files ∧
      ∀ before f after, (reclaimLoop store target delete files used st).1 = before ++ f :: after →
        target < used - (before.map FileEntry.bytes).sum := by
  induction files generalizing used st with
  | nil => exact ⟨List.Sublist.refl _, by simp [reclaimLoop]⟩
  | cons g files ih =>
    unfold reclaimLoop
    split
    · exact ⟨List.nil_sublist _, by simp⟩
    · next hmore =>
      split
      · exact ⟨(ih used st).1.cons g, (ih used st).2⟩
      · rcases delete g.path st with ⟨deleted, st'⟩
        cases deleted with
        | false => exact ⟨(ih used st').1.cons g, (ih used st').2⟩
        | true =>
          obtain ⟨hsub, hgt⟩ := ih (used - g.bytes) st'
          refine ⟨hsub.cons_cons g, ?_⟩
          intro before f after hsplit
          cases before with
          | nil => simpa using hmore
          | cons b before =>
            simp only [List.cons_append, List.cons.injEq] at hsplit
            obtain ⟨rfl, hsplit⟩ := hsplit
            have := hgt before f after hsplit
            rw [List.map_cons, List.sum_cons]
            omega

theorem reclaimFiles_spec {σ : Type} (delete : Path → σ → Bool × σ) (files : List FileEntry)
    (tenancy : Tenancy) (usage : DiskUsage) (wm : Watermarks) (st : σ) :
    ∃ dropped : List FileEntry,
      (reclaimFiles store delete files tenancy usage wm st).1.filesDropped
        = dropped.map FileEntry.path ∧
      dropped.Subperm files ∧
      ∀ before f after, dropped = before ++ f :: after →
        usage.target wm < usage.used - (before.map FileEntry.bytes).sum := by
  unfold reclaimFiles
  simp only
  split
  · exact ⟨[], rfl, List.nil_subperm, by simp⟩
  · obtain ⟨hsub, hgt⟩ := @reclaimLoop_spec store _ (usage.target wm) delete
      (files.insertionSort fun a b => reclaimLe tenancy a b = true) usage.used st
    exact ⟨_, rfl, hsub.subperm.trans (List.perm_insertionSort _ _).subperm, hgt⟩

/-- The rows whose files a pass reclaims. -/
theorem exists_dropped {r : ReclaimReport} (hr : p.reclaim store d = some r) :
    ∃ dropped : List FileEntry, r.filesDropped = dropped.map FileEntry.path ∧
      dropped.Subperm (p.measured store d).catalog ∧
      ∀ before f after, dropped = before ++ f :: after →
        (p.usage store d).target p.wm
          < (p.usage store d).used - (before.map FileEntry.bytes).sum := by
  unfold reclaim at hr
  simp only at hr
  split at hr
  · cases hr
  · obtain rfl := Option.some.inj hr
    obtain ⟨dropped, heq, hsub, hgt⟩ := @reclaimFiles_spec store _ (removeFile p.stuck)
      ((p.measured store d).catalog.partition fun f => p.pinned.contains f.path).2 p.tenancy
      (p.usage store d) p.wm (p.measured store d).fs
    refine ⟨dropped, heq, hsub.trans ?_, hgt⟩
    rw [List.partition_eq_filter_filter]
    exact List.filter_sublist.subperm

/-- The pass on a sound disk reclaims only while more than its target is there. -/
theorem frugal (h : (p.measured store d).Sound store) : p.Frugal store d := by
  intro i path hi
  -- the reclaim deletions come after the expiry
  have hexpiry : ∀ e ∈ p.expiry store d, e ≠ .reclaim path := by
    intro e he
    unfold expiry at he
    simp only at he
    rcases List.mem_append.mp he with he | he
    · obtain ⟨r, -, rfl⟩ := List.mem_map.mp he
      simp
    · split at he
      · cases he
      · rw [List.mem_singleton.mp he]
        simp
  have hge : (p.expiry store d).length ≤ i := by
    by_contra hlt
    rw [effects, List.getElem?_append_left (by omega)] at hi
    exact hexpiry _ (List.mem_of_getElem? hi) rfl
  obtain ⟨j, rfl⟩ := Nat.exists_eq_add_of_le hge
  rw [effects, List.getElem?_append_right hge, Nat.add_sub_cancel_left] at hi
  rw [effects, List.take_length_add_append, Disk.applyAll_append]
  change _ < ((p.measured store d).applyAll _).present
  unfold relief at hi ⊢
  cases hr : p.reclaim store d with
  | none => simp [hr] at hi
  | some r =>
    simp only [hr] at hi ⊢
    obtain ⟨dropped, heq, hsub, hgt⟩ := exists_dropped hr
    rw [heq] at hi ⊢
    have hj : j < dropped.length := by
      by_contra hj
      rw [List.getElem?_append_right (by simpa using hj)] at hi
      have hmem := List.mem_of_getElem? hi
      split at hmem
      · cases hmem
      · cases List.mem_singleton.mp hmem
    have hsplit : dropped = dropped.take j ++ dropped[j] :: dropped.drop (j + 1) := by
      rw [List.getElem_cons_drop, List.take_append_drop]
    have htake : ((dropped.map FileEntry.path).map Effect.reclaim ++ (if dropped.map FileEntry.path = []
        ∨ p.catalogFails = true then [] else [Effect.forget (dropped.map FileEntry.path)])).take j
        = ((dropped.take j).map FileEntry.path).map Effect.reclaim := by
      rw [List.take_append_of_le_length (by simpa using hj.le), ← List.map_take, ← List.map_take]
    have hmore := hgt _ _ _ hsplit
    have hpresent := h.present_reclaim ((List.take_sublist j dropped).subperm.trans hsub)
    have hused : (p.usage store d).used = (p.measured store d).present := h.used_measure _
    rw [htake]
    omega

/-- A pass that is not cut short leaves a sound disk. -/
theorem sound_applyAll (h : (p.measured store d).Sound store) (hcatalog : p.catalogFails = false) :
    (d.applyAll (p.effects store d)).Sound store := by
  rw [effects, Disk.applyAll_append]
  change ((p.measured store d).applyAll (p.relief store d)).Sound store
  unfold relief
  cases hr : p.reclaim store d with
  | none => exact h
  | some r =>
    simp only [hcatalog, Bool.false_eq_true, or_false]
    rw [Disk.applyAll_append, Disk.applyAll_reclaim]
    split
    · next hnone =>
      rw [hnone]
      exact h
    · refine h.of_sublist List.filter_sublist fun f hf => ?_
      obtain ⟨hmem, hkept⟩ := List.mem_filter.mp hf
      rw [Bool.not_eq_true', ← Bool.not_eq_true, List.contains_iff_mem] at hkept
      show (((p.measured store d).fs.applyAll (r.filesDropped.map .file)).size f.path).getD 0 = _
      rw [Fs.size_applyAll, if_neg (by simpa using hkept)]
      exact h.whole f hmem

end Pass

/-! ## Every history -/

theorem Disk.sound_empty (store : Path) : (Disk.empty store).Sound store :=
  ⟨List.nodup_nil, by simp [Disk.empty], by simp [Disk.empty]⟩

theorem Disk.Sound.commit {d : Disk} (h : d.Sound store) {f : FileEntry}
    (hok : d.ok store (.commit f) = true) : (d.step store (.commit f)).Sound store := by
  simp only [Disk.ok, Bool.and_eq_true, bne_iff_ne, decide_eq_true_eq, beq_iff_eq] at hok
  obtain ⟨⟨⟨⟨⟨htenant, hindex⟩, hnode⟩, hbucket⟩, hepoch⟩, hdir⟩ := hok
  have hsub : (d.catalog.filter fun g => g.path != f.path).Sublist d.catalog := List.filter_sublist
  have hother : ∀ g ∈ d.catalog.filter (fun g => g.path != f.path), g.path ≠ f.path := fun g hg =>
    by simpa using (List.mem_filter.mp hg).2
  constructor
  · show (((d.catalog.filter fun g => g.path != f.path) ++ [f]).map FileEntry.path).Nodup
    rw [List.map_append, List.nodup_append]
    refine ⟨h.nodup.sublist (hsub.map _), by simp, ?_⟩
    intro a ha b hb
    obtain ⟨g, hg, rfl⟩ := List.mem_map.mp ha
    obtain rfl : b = f.path := by simpa using hb
    exact hother g hg
  · intro g hg
    rcases List.mem_append.mp hg with hg | hg
    · exact h.placed g (hsub.subset hg)
    · obtain rfl := List.mem_singleton.mp hg
      have hne : g.path ≠ [] := by
        intro hnil
        rw [hnil] at hdir
        simp [PartitionKey.dir] at hdir
      refine ⟨⟨htenant, hindex, hnode, hbucket, hepoch⟩, g.path.getLast hne, ?_⟩
      rw [← hdir, List.dropLast_append_getLast]
  · intro g hg
    show (Assoc.get (Assoc.insert d.fs.files f.path f.bytes) g.path).getD 0 = g.bytes
    rw [Assoc.get_insert]
    rcases List.mem_append.mp hg with hg | hg
    · rw [if_neg (hother g hg)]
      exact h.whole g (hsub.subset hg)
    · obtain rfl := List.mem_singleton.mp hg
      rw [if_pos rfl]
      rfl

theorem Disk.Sound.step {d : Disk} (h : d.Sound store) (e : Event) (hok : d.ok store e = true) :
    (d.step store e).Sound store := by
  cases e with
  | commit f => exact h.commit hok
  | forget paths =>
    exact h.of_sublist List.filter_sublist fun f hf => h.whole f (List.mem_filter.mp hf).1
  | unlink path =>
    refine h.of_sublist (List.Sublist.refl _) fun f hf => ?_
    have hne : f.path ≠ path := by simpa using List.all_eq_true.mp hok f hf
    show ((d.fs.apply (.file path)).size f.path).getD 0 = f.bytes
    rw [Fs.size_apply, if_neg (by simpa using hne.symm)]
    exact h.whole f hf
  | wal bytes => exact ⟨h.nodup, h.placed, h.whole⟩
  | pass p stop =>
    simp only [Disk.ok, Bool.and_eq_true, Bool.not_eq_true', Option.all_eq_true] at hok
    obtain ⟨⟨hclear, hcatalog⟩, hstop⟩ := hok
    cases stop with
    | none =>
      show (d.applyAll ((p.effects store d).take _)).Sound store
      rw [Option.getD_none, List.take_length]
      exact Pass.sound_applyAll (Pass.sound_measured h hclear hcatalog) hcatalog
    | some n =>
      exact h.of_sublist (d.catalog_applyAll _).1 (Disk.whole_iff.mp (hstop n rfl))

/-- **Relief deletes no more than it must.** In every history of maintenance passes, with
files committed and deleted beside them and with crashes, and with each step meeting `ok`:
the reclaim of each pass deletes a file only while the bytes that are there exceed the
reclaim target. -/
theorem reclaim_frugal (store : Path) (before after : List Event) (p : Pass) (stop : Option ℕ)
    (hok : Runs.Meets (Disk.step store) (fun d e => d.ok store e = true) (.empty store)
      (before ++ .pass p stop :: after)) :
    p.Frugal store (Runs.run (Disk.step store) (.empty store) before) := by
  have h : (Runs.run (Disk.step store) (.empty store) before).Sound store :=
    hok.append_left.invariant (fun _ e hi hm => hi.step e hm) (Disk.sound_empty store)
  have hpass := hok.append_right.1
  simp only [Disk.ok, Bool.and_eq_true, Bool.not_eq_true'] at hpass
  exact Pass.frugal (Pass.sound_measured h hpass.1.1 hpass.1.2)

/-! ## Examples -/

def standardTenants : List TenantConfig := [⟨defaultTenant, .default, [⟨defaultIndex, .standard⟩]⟩]

theorem checkTenancy_standardTenants :
    checkTenancy standardTenants "node-a".toList = .ok () := by decide

/-- An instance with the standard buckets. -/
def standardTenancy : Tenancy :=
  ⟨standardTenants, "node-a".toList, checkTenancy_standardTenants⟩

def exampleStore : Path := ["store".toList]

/-- A file of the first hour. -/
def exampleFile (bucket name : String) (bytes : ℕ) : FileEntry :=
  let key : PartitionKey := ⟨defaultTenant, defaultIndex, 0, bucket.toList, "node-a".toList⟩
  ⟨exampleStore ++ key.dir ++ [name.toList], key, 1, bytes, 0⟩

/-- A pass with a budget of four bytes, of which one is the reclaim target, at the time when
nothing is up. -/
def smallPass : Pass :=
  ⟨standardTenancy, 4, ⟨1 / 2, 1, 1 / 4⟩, 0, [], fun _ => false, false⟩

def twoFiles : List Event :=
  [.commit (exampleFile "debug" "a" 2), .commit (exampleFile "info" "b" 1)]

/-- The pass deletes the DEBUG file and is not cut short; the next one deletes nothing. -/
theorem reclaim_frugal_twice :
    let d := Runs.run (Disk.step exampleStore) (.empty exampleStore)
      (twoFiles ++ [.pass smallPass none])
    smallPass.effects exampleStore d = [] ∧ smallPass.Frugal exampleStore d := by
  have hfrugal := reclaim_frugal exampleStore (twoFiles ++ [.pass smallPass none]) [] smallPass none
    (by decide +kernel)
  exact ⟨by decide +kernel, hfrugal⟩

/-- The pass crashes behind its one deletion. The next pass takes the deleted file to be
there still, and deletes the other one although no more than the target is there. -/
theorem crashed_reclaim_not_frugal :
    let d := Runs.run (Disk.step exampleStore) (.empty exampleStore)
      (twoFiles ++ [.pass smallPass (some 1)])
    (smallPass.effects exampleStore d)[0]? = some (.reclaim (exampleFile "info" "b" 1).path) ∧
      d.present = 1 ∧ (smallPass.usage exampleStore d).target smallPass.wm = 1 ∧
      ¬ smallPass.Frugal exampleStore d := by
  intro d
  have hdelete : (smallPass.effects exampleStore d)[0]?
      = some (.reclaim (exampleFile "info" "b" 1).path) := by decide +kernel
  have hpresent : d.present = 1 := by decide +kernel
  have htarget : (smallPass.usage exampleStore d).target smallPass.wm = 1 := by decide +kernel
  clear_value d
  refine ⟨hdelete, hpresent, htarget, ?_⟩
  intro hfrugal
  have hlt := hfrugal 0 _ hdelete
  rw [htarget, List.take_zero] at hlt
  change 1 < d.present at hlt
  omega

end LogLess.Relief
