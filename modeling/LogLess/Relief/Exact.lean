import Mathlib.Data.List.TakeWhile
import LogLess.Lib.Lists
import LogLess.Relief.Pass

/-!
# What a pass deletes

A pass chooses the directories that are up, and then files by the rows of the catalog. Where
nothing it chooses is pinned or cannot be removed, and each row has its file, it deletes just
what it chooses.
-/

namespace LogLess.Relief

/-! ## Retention -/

/-- The level directories that are up. -/
def due (tenancy : Tenancy) (now : ℕ) (levels : List (Path × PartitionKey)) :
    List (Path × PartitionKey) :=
  levels.filter fun level => pastRetention tenancy now level.2 == some true

theorem mem_due {tenancy : Tenancy} {now : ℕ} {levels : List (Path × PartitionKey)}
    {level : Path × PartitionKey} :
    level ∈ due tenancy now levels ↔
      level ∈ levels ∧ pastRetention tenancy now level.2 = some true := by
  rw [due, List.mem_filter, beq_iff_eq]

/-- Nothing in this directory is pinned, and all of it can be removed. -/
def Free (stuck : Path → Bool) (pins : List Path) (fs : Fs) (dir : Path) : Prop :=
  (∀ p ∈ pins, ¬ dir <+: p) ∧ (∀ f ∈ fs.under dir, stuck f.1 = false) ∧
    ∀ d ∈ fs.dirsUnder dir, stuck d = false

/-- What a sweep has done when it is through with some level directories, of which `up` were
up. -/
structure Sweep.Exact (dryRun : Bool) (fs : Fs) (up : List (Path × PartitionKey)) (sw : Sweep) :
    Prop where
  expired : ∀ level, level ∈ sw.report.expired.map (fun e => (e.path, e.key)) ↔ level ∈ up
  size : ∀ p, sw.fs.size p =
    if dryRun = false ∧ ∃ level ∈ up, level.1 <+: p then none else fs.size p
  files : sw.fs.files.Sublist fs.files
  dirs : sw.fs.dirs.Sublist fs.dirs

namespace Sweep.Exact

variable {stuck : Path → Bool} {pins : List Path} {tenancy : Tenancy} {now : ℕ} {dryRun : Bool}
  {fs : Fs} {up : List (Path × PartitionKey)} {sw : Sweep}

theorem start : (Sweep.start fs).Exact dryRun fs [] where
  expired := by simp [Sweep.start]
  size := by simp [Sweep.start]
  files := List.Sublist.refl _
  dirs := List.Sublist.refl _

/-- A directory that is up is removed whole. -/
theorem removeWhole (h : sw.Exact dryRun fs up) {path : Path} {key : PartitionKey}
    (hpast : pastRetention tenancy now key = some true) (hfree : Free stuck pins fs path) :
    (Relief.expireLevel stuck pins tenancy now dryRun sw (path, key)).Exact dryRun fs
      (up ++ [(path, key)]) := by
  have hpins : (pins.any fun p => path.isPrefixOf p) = false := by
    rw [List.any_eq_false]
    intro p hp
    rw [List.isPrefixOf_iff_prefix]
    exact hfree.1 p hp
  have hexpired : ∀ bytes level,
      level ∈ (sw.report.expired ++ [(⟨key, path, bytes⟩ : Expired)]).map
          (fun e => (e.path, e.key)) ↔
        level ∈ up ++ [(path, key)] := by
    intro bytes level
    rw [List.map_append, List.mem_append, List.mem_append, h.expired]
    rfl
  unfold Relief.expireLevel
  simp only [hpast, hpins, Bool.false_eq_true, if_false]
  cases dryRun with
  | true =>
    simp only [if_true]
    exact
      { expired := hexpired _
        size := fun p => by simpa [Sweep.remove, Fs.applyAll] using h.size p
        files := h.files
        dirs := h.dirs }
  | false =>
    have hthrough : (removeDirAll stuck sw.fs path).2 = true := by
      simp only [removeDirAll, List.all_append, List.all_map, Bool.and_eq_true, List.all_eq_true,
        Function.comp_apply, Removal.path]
      refine ⟨fun f hf => ?_, fun d hd => ?_⟩
      · obtain ⟨hmem, hpre⟩ := Fs.mem_under.mp hf
        rw [hfree.2.1 f (Fs.mem_under.mpr ⟨h.files.subset hmem, hpre⟩)]
        rfl
      · obtain ⟨hmem, hpre⟩ := Fs.mem_dirsUnder.mp hd
        rw [hfree.2.2 d (Fs.mem_dirsUnder.mpr ⟨h.dirs.subset hmem, hpre⟩)]
        rfl
    -- nothing stops it, so all that was listed is gone
    have hall : (removeDirAll stuck sw.fs path).1
        = (sw.fs.under path).map (fun f => Removal.file f.1)
          ++ (sw.fs.dirsUnder path).map Removal.dir :=
      List.takeWhile_eq_self_iff.mpr (List.all_eq_true.mp hthrough)
    obtain ⟨hfiles, hdirs⟩ := sw.fs.sublist_applyAll (removeDirAll stuck sw.fs path).1
    simp only [Bool.false_eq_true, if_false, hthrough, if_true]
    refine
      { expired := hexpired _
        size := ?_
        files := hfiles.trans h.files
        dirs := hdirs.trans h.dirs }
    intro p
    show (sw.fs.applyAll (removeDirAll stuck sw.fs path).1).size p = _
    have hmem : Removal.file p ∈ (removeDirAll stuck sw.fs path).1 ↔
        (sw.fs.size p).isSome = true ∧ path <+: p := by
      rw [hall, Fs.size, Assoc.isSome_get]
      simp [Fs.mem_under]
    have hup : (∃ level ∈ up ++ [(path, key)], level.1 <+: p) ↔
        (∃ level ∈ up, level.1 <+: p) ∨ path <+: p := by
      simp [or_and_right, exists_or]
    simp only [Fs.size_applyAll, hmem, h.size p, true_and, hup]
    by_cases hin : ∃ level ∈ up, level.1 <+: p
    · simp [hin]
    · by_cases hpre : path <+: p
      · simp [hin, hpre]
      · simp [hin, hpre]

/-- One level directory. -/
theorem expireLevel (h : sw.Exact dryRun fs up) {level : Path × PartitionKey}
    (hfree : pastRetention tenancy now level.2 = some true → Free stuck pins fs level.1) :
    (Relief.expireLevel stuck pins tenancy now dryRun sw level).Exact dryRun fs
      (up ++ due tenancy now [level]) := by
  obtain ⟨path, key⟩ := level
  by_cases hpast : pastRetention tenancy now key = some true
  · have hdue : due tenancy now [(path, key)] = [(path, key)] := by simp [due, hpast]
    rw [hdue]
    exact h.removeWhole hpast (hfree hpast)
  · have hdue : due tenancy now [(path, key)] = [] := by simp [due, hpast]
    rw [hdue, List.append_nil]
    unfold Relief.expireLevel
    simp only
    split
    · exact ⟨h.expired, h.size, h.files, h.dirs⟩
    · exact h
    · next hup => exact absurd hup hpast

theorem tidy (h : sw.Exact dryRun fs up) (hourDir : Path) :
    (Relief.tidy stuck dryRun sw hourDir).Exact dryRun fs up := by
  unfold Relief.tidy
  split
  · exact h
  · split
    · obtain ⟨hfiles, hdirs⟩ := sw.fs.sublist_applyAll [.dir hourDir]
      exact
        { expired := h.expired
          size := h.size
          files := hfiles.trans h.files
          dirs := hdirs.trans h.dirs }
    · exact h

theorem sweepHour (h : sw.Exact dryRun fs up) {hour : Path × List (Path × PartitionKey)}
    (hfree : ∀ level ∈ due tenancy now hour.2, Free stuck pins fs level.1) :
    (Relief.sweepHour stuck pins tenancy now dryRun sw hour).Exact dryRun fs
      (up ++ due tenancy now hour.2) := by
  refine tidy ?_ hour.1
  obtain ⟨dir, own⟩ := hour
  simp only at hfree ⊢
  clear dir
  induction own generalizing sw up with
  | nil => simpa [due] using h
  | cons level own ih =>
    have hcons : due tenancy now (level :: own) = due tenancy now [level] ++ due tenancy now own :=
      List.filter_append [level] own
    rw [hcons] at hfree ⊢
    rw [← List.append_assoc]
    refine ih (h.expireLevel fun hpast => hfree level ?_) fun x hx =>
      hfree x (List.mem_append_right _ hx)
    exact List.mem_append_left _ (mem_due.mpr ⟨List.mem_singleton.mpr rfl, hpast⟩)

end Sweep.Exact

/-- A sweep removes the directories that are up, and nothing else. -/
theorem exact_enforcePinned {stuck : Path → Bool} {pins : List Path} {tenancy : Tenancy} {now : ℕ}
    {dryRun : Bool} {store : Path} {fs : Fs}
    (hfree : ∀ level ∈ due tenancy now (fs.levelsOf store), Free stuck pins fs level.1) :
    (enforcePinned stuck pins tenancy now dryRun store fs).Exact dryRun fs
      (due tenancy now (fs.levelsOf store)) := by
  unfold enforcePinned
  unfold Fs.levelsOf at hfree ⊢
  by_cases hstore : store ∈ fs.dirs
  swap
  · rw [if_pos hstore, if_neg hstore]
    exact .start
  · rw [if_pos hstore] at hfree ⊢
    rw [if_neg (not_not.mpr hstore)]
    have hfold : ∀ (hours : List (Path × List (Path × PartitionKey))) (sw : Sweep)
        (up : List (Path × PartitionKey)),
        (∀ level ∈ due tenancy now (hours.flatMap Prod.snd), Free stuck pins fs level.1) →
        sw.Exact dryRun fs up →
        (hours.foldl (sweepHour stuck pins tenancy now dryRun) sw).Exact dryRun fs
          (up ++ due tenancy now (hours.flatMap Prod.snd)) := by
      intro hours
      induction hours with
      | nil =>
        intro sw up _ h
        simpa [due] using h
      | cons hour hours ih =>
        intro sw up hfree h
        have hcons : due tenancy now ((hour :: hours).flatMap Prod.snd)
            = due tenancy now hour.2 ++ due tenancy now (hours.flatMap Prod.snd) := by
          rw [List.flatMap_cons]
          exact List.filter_append _ _
        rw [hcons] at hfree ⊢
        rw [← List.append_assoc]
        exact ih _ _ (fun x hx => hfree x (List.mem_append_right _ hx))
          (h.sweepHour fun x hx => hfree x (List.mem_append_left _ hx))
    have h := hfold _ _ _ hfree .start
    rw [List.nil_append] at h
    exact
      { expired := fun level => by
          rw [← h.expired level, List.mem_map, List.mem_map]
          simp only [List.mem_insertionSort]
        size := h.size
        files := h.files
        dirs := h.dirs }

/-- The dry run of a preview lists the directories that are up. -/
theorem mem_expired_enforce {tenancy : Tenancy} {now : ℕ} {store : Path} {fs : Fs}
    {level : Path × PartitionKey} :
    level ∈ (enforce tenancy now true store fs).report.expired.map (fun e => (e.path, e.key)) ↔
      level ∈ due tenancy now (fs.levelsOf store) :=
  (exact_enforcePinned fun _ _ => ⟨by simp, by simp, by simp⟩).expired level

/-! ## The files that are reclaimed -/

/-- The rows in no directory that is up. -/
def keptRows (tenancy : Tenancy) (now : ℕ) (store : Path) (d : Disk) : List FileEntry :=
  d.catalog.filter fun f =>
    !(due tenancy now (d.fs.levelsOf store)).any fun level => level.1.isPrefixOf f.path

/-- The files that the reclaim of a pass deletes if no deletion fails. -/
def chosen (store : Path) (tenancy : Tenancy) (budget : ℕ) (wm : Watermarks) (walBytes : ℕ)
    (rows : List FileEntry) : List Path :=
  let usage : DiskUsage := ⟨walBytes, (rows.map FileEntry.bytes).sum, budget⟩
  if usage.pressure wm = .normal then []
  else (reclaimFiles store (fun _ st => (true, st)) rows tenancy usage wm ()).1.filesDropped

/-- Only files of the catalog are chosen. -/
theorem mem_chosen {store : Path} {tenancy : Tenancy} {budget : ℕ} {wm : Watermarks} {walBytes : ℕ}
    {rows : List FileEntry} {path : Path}
    (h : path ∈ chosen store tenancy budget wm walBytes rows) : ∃ f ∈ rows, f.path = path := by
  unfold chosen at h
  simp only at h
  split at h
  · cases h
  · obtain ⟨dropped, heq, hsub, -⟩ := @Pass.reclaimFiles_spec store Unit (fun _ st => (true, st)) rows
      tenancy ⟨walBytes, (rows.map FileEntry.bytes).sum, budget⟩ wm ()
    rw [heq] at h
    obtain ⟨f, hf, rfl⟩ := List.mem_map.mp h
    exact ⟨f, hsub.subset hf, rfl⟩

section

variable {store : Path} {target : ℕ} {stuck : Path → Bool} {pins : List Path}

theorem reclaimLoop_of_le {σ : Type} {delete : Path → σ → Bool × σ} {used : ℕ}
    (h : used ≤ target) (files : List FileEntry) (st : σ) :
    reclaimLoop store target delete files used st = ([], used, st) := by
  cases files with
  | nil => rfl
  | cons f files => rw [reclaimLoop, if_pos h]

/-- The loop over the rows that are not pinned deletes what the loop over all rows does, if
none of that is pinned and each of its files can be removed. -/
theorem reclaimLoop_removeFile {files : List FileEntry} {used : ℕ} {fs : Fs}
    (hnodup : (files.map FileEntry.path).Nodup)
    (hfree : ∀ f ∈ (reclaimLoop store target (fun _ st => (true, st)) files used ()).1,
      pins.contains f.path = false ∧ stuck f.path = false ∧ (fs.size f.path).isSome = true) :
    (reclaimLoop store target (removeFile stuck)
        (files.filter fun f => !pins.contains f.path) used fs).1
      = (reclaimLoop store target (fun _ st => (true, st)) files used ()).1 := by
  induction files generalizing used fs with
  | nil => rfl
  | cons f files ih =>
    obtain ⟨hfresh, hnodup⟩ := List.nodup_cons.mp hnodup
    by_cases hle : used ≤ target
    · rw [reclaimLoop_of_le hle, reclaimLoop_of_le hle]
    · rw [reclaimLoop, if_neg hle] at hfree ⊢
      by_cases hin : store.isPrefixOf f.path = true
      · rw [if_neg (not_not.mpr hin)] at hfree ⊢
        simp only at hfree ⊢
        obtain ⟨hpin, hstuck, hsome⟩ := hfree f List.mem_cons_self
        rw [List.filter_cons_of_pos (by rw [hpin]; rfl), reclaimLoop, if_neg hle,
          if_neg (not_not.mpr hin), removeFile, hsome, hstuck]
        simp only [Bool.not_false, Bool.and_self, if_true]
        rw [ih hnodup fun g hg => ?_]
        -- another file is still there
        obtain ⟨hpin', hstuck', hsome'⟩ := hfree g (List.mem_cons_of_mem _ hg)
        have hmem : g ∈ files := (Pass.reclaimLoop_spec target _ files _ ()).1.subset hg
        have hne : Removal.file f.path ≠ .file g.path := by
          intro heq
          exact hfresh (List.mem_map.mpr ⟨g, hmem, (Removal.file.inj heq).symm⟩)
        refine ⟨hpin', hstuck', ?_⟩
        rw [Fs.size_apply, if_neg hne]
        exact hsome'
      · rw [if_pos hin] at hfree ⊢
        by_cases hpin : pins.contains f.path = true
        · rw [List.filter_cons_of_neg (by rw [hpin]; simp)]
          exact ih hnodup hfree
        · rw [List.filter_cons_of_pos (by rw [Bool.not_eq_true] at hpin; rw [hpin]; rfl), reclaimLoop, if_neg hle, if_pos hin]
          exact ih hnodup hfree

end

/-! ## The whole pass -/

theorem reclaimLe_eq (tenancy : Tenancy) (a b : FileEntry) :
    reclaimLe tenancy a b = (compareLex (compareOn (retentionSecs tenancy))
      (compareLex (compareOn FileEntry.minTsNanos) (compareOn FileEntry.path)) a b).isLE := rfl

instance (tenancy : Tenancy) : Std.Total fun a b => reclaimLe tenancy a b = true where
  total a b := by
    rw [reclaimLe_eq, reclaimLe_eq]
    rw [@Std.OrientedCmp.eq_swap _ (compareLex (compareOn (retentionSecs tenancy))
      (compareLex (compareOn FileEntry.minTsNanos) (compareOn FileEntry.path))) _ a b]
    cases compareLex (compareOn (retentionSecs tenancy))
      (compareLex (compareOn FileEntry.minTsNanos) (compareOn FileEntry.path)) b a <;> simp

instance (tenancy : Tenancy) : IsTrans FileEntry fun a b => reclaimLe tenancy a b = true where
  trans a b c hab hbc := by
    rw [reclaimLe_eq] at hab hbc ⊢
    exact Std.TransCmp.isLE_trans hab hbc

/-- The rows are in the directories of their keys, with different paths, and each has its
file. -/
structure Disk.Backed (store : Path) (d : Disk) : Prop where
  nodup : (d.catalog.map FileEntry.path).Nodup
  placed : ∀ f ∈ d.catalog, f.Placed store
  there : ∀ f ∈ d.catalog, (d.fs.size f.path).isSome = true

theorem clears_of_free {stuck : Path → Bool} {pins : List Path} {tenancy : Tenancy} {now : ℕ}
    {levels : List (Path × PartitionKey)} {fs : Fs}
    (hfree : ∀ level ∈ due tenancy now levels, Free stuck pins fs level.1) :
    Clears stuck pins tenancy now levels fs = true := by
  rw [Clears, List.all_eq_true]
  intro level hlevel
  by_cases hpast : pastRetention tenancy now level.2 = some true
  · obtain ⟨-, hfiles, hdirs⟩ := hfree level (mem_due.mpr ⟨hlevel, hpast⟩)
    have hremovable : ((fs.under level.1).all (fun f => !stuck f.1)
        && (fs.dirsUnder level.1).all fun d => !stuck d) = true := by
      simp only [Bool.and_eq_true, List.all_eq_true, Bool.not_eq_true']
      exact ⟨hfiles, hdirs⟩
    rw [hremovable, Bool.or_true]
  · simp [hpast]

namespace Pass

variable {store : Path} {p : Pass} {d : Disk}

/-- When usage is measured, what was up is gone and its rows are forgotten. -/
theorem measured_eq (h : d.Backed store)
    (hfree : ∀ level ∈ due p.tenancy p.now (d.fs.levelsOf store),
      Free p.stuck p.pinned d.fs level.1)
    (hcatalog : p.catalogFails = false) :
    p.measured store d =
      { d with fs := (p.sweep store d).fs, catalog := keptRows p.tenancy p.now store d } := by
  have hexact : (p.sweep store d).Exact false d.fs (due p.tenancy p.now (d.fs.levelsOf store)) :=
    exact_enforcePinned hfree
  have htracks : (p.sweep store d).Tracks d.fs (d.fs.levelsOf store) :=
    tracks_enforcePinned (clears_of_free hfree)
  have hremoved : d.applyAll ((p.sweep store d).removals.map .remove)
      = { d with fs := (p.sweep store d).fs } := by
    rw [Disk.applyAll_remove, ← htracks.replay]
  have hgone : ∀ f ∈ d.catalog, (p.sweep store d).fs.size f.path = none ↔
      ∃ level ∈ due p.tenancy p.now (d.fs.levelsOf store), level.1 <+: f.path := by
    intro f hf
    rw [hexact.size]
    have hthere := h.there f hf
    by_cases hup : ∃ level ∈ due p.tenancy p.now (d.fs.levelsOf store), level.1 <+: f.path
    · simp [hup]
    · simp only [hup, and_false, if_false, iff_false]
      intro hnone
      rw [hnone] at hthere
      cases hthere
  have hkept : ∀ f : FileEntry,
      (due p.tenancy p.now (d.fs.levelsOf store)).any (fun level => level.1.isPrefixOf f.path)
        = true ↔ ∃ level ∈ due p.tenancy p.now (d.fs.levelsOf store), level.1 <+: f.path := by
    intro f
    simp only [List.any_eq_true, List.isPrefixOf_iff_prefix]
  unfold measured expiry
  simp only [hcatalog, Bool.false_eq_true, or_false]
  rw [Disk.applyAll_append, hremoved]
  split
  · next hnone =>
    have hempty : due p.tenancy p.now (d.fs.levelsOf store) = [] := by
      rw [List.eq_nil_iff_forall_not_mem]
      intro level hlevel
      have := (hexact.expired level).mpr hlevel
      rw [hnone] at this
      cases this
    simp [Disk.applyAll, keptRows, hempty]
  · show Disk.mk _ (d.catalog.filter _) _ = Disk.mk _ (d.catalog.filter _) _
    refine congrArg (fun rows => Disk.mk _ rows _) (List.filter_congr fun f hf => ?_)
    rw [Bool.eq_iff_iff, Bool.not_eq_true', Bool.not_eq_true', ← Bool.not_eq_true,
      ← Bool.not_eq_true, hkept, not_iff_not, ← hgone f hf, List.contains_iff_mem]
    constructor
    · intro hmem
      obtain ⟨g, hg, heq⟩ := List.mem_map.mp hmem
      have := (List.mem_filter.mp hg).2
      rw [Bool.and_eq_true, Option.isNone_iff_eq_none] at this
      rw [← heq]
      exact this.2
    · intro hnone
      obtain ⟨level, hlevel, hpre⟩ := (hgone f hf).mp hnone
      refine List.mem_map.mpr ⟨f, List.mem_filter.mpr ⟨hf, ?_⟩, rfl⟩
      obtain ⟨e, he, heq⟩ := List.mem_map.mp ((hexact.expired level).mpr hlevel)
      have hin := (h.placed f hf).isIn (mem_due.mp hlevel).1 hpre
      rw [Bool.and_eq_true, Option.isNone_iff_eq_none]
      refine ⟨List.any_eq_true.mpr ⟨level.2, List.mem_map.mpr ⟨e, he, ?_⟩, hin⟩, hnone⟩
      rw [← heq]

/-- The reclaim with pins and a disk deletes what is chosen without them. -/
theorem filesDropped_reclaimPinned {rows : List FileEntry} {usage : DiskUsage} {wm : Watermarks}
    {tenancy : Tenancy} {stuck : Path → Bool} {pins : List Path} {fs : Fs}
    (hnodup : (rows.map FileEntry.path).Nodup)
    (hthere : ∀ f ∈ rows, (fs.size f.path).isSome = true)
    (hfree : ∀ q ∈ (reclaimFiles store (fun _ st => (true, st)) rows tenancy usage wm
      ()).1.filesDropped, pins.contains q = false ∧ stuck q = false) :
    (reclaimPinned store stuck pins rows tenancy usage wm fs).1.filesDropped
      = (reclaimFiles store (fun _ st => (true, st)) rows tenancy usage wm ()).1.filesDropped := by
  unfold reclaimPinned
  rw [List.partition_eq_filter_filter]
  unfold reclaimFiles at hfree ⊢
  simp only at hfree ⊢
  split
  · rfl
  · next hused =>
    rw [if_neg hused] at hfree
    simp only at hfree
    set sorted := rows.insertionSort fun a b => reclaimLe tenancy a b = true with hsorted
    have hperm : sorted.Perm rows := List.perm_insertionSort _ _
    have hfilter : (rows.filter fun f => !pins.contains f.path).insertionSort
        (fun a b => reclaimLe tenancy a b = true) = sorted.filter fun f => !pins.contains f.path :=
      (Lists.filter_insertionSort _ _).symm
    have hloop := @reclaimLoop_removeFile store (usage.target wm) stuck pins sorted usage.used fs
      ((hperm.map _).nodup_iff.mpr hnodup) (by
        intro f hf
        obtain ⟨hpin, hstuck⟩ := hfree f.path (List.mem_map.mpr ⟨f, hf, rfl⟩)
        have hmem : f ∈ sorted := (Pass.reclaimLoop_spec _ _ sorted _ ()).1.subset hf
        exact ⟨hpin, hstuck, hthere f (hperm.mem_iff.mp hmem)⟩)
    rw [← hloop]
    show List.map FileEntry.path (reclaimLoop store _ (removeFile stuck)
      (List.insertionSort _ (rows.filter fun f => !pins.contains f.path)) _ fs).1 = _
    rw [hfilter]

/-- The files that the reclaim of a pass deletes. -/
theorem size_relief (store : Path) (p : Pass) (d : Disk) (path : Path) :
    ((p.measured store d).applyAll (p.relief store d)).fs.size path =
      if path ∈ (p.reclaim store d).elim [] ReclaimReport.filesDropped then none
      else (p.measured store d).fs.size path := by
  unfold relief
  cases p.reclaim store d with
  | none => simp [Disk.applyAll]
  | some r =>
    rw [Disk.applyAll_append, Disk.applyAll_reclaim]
    have hforget : ∀ d' : Disk,
        (d'.applyAll (if r.filesDropped = [] ∨ p.catalogFails = true then []
          else [.forget r.filesDropped])).fs = d'.fs := by
      intro d'
      split <;> rfl
    rw [hforget, Fs.size_applyAll]
    exact if_congr (by simp) rfl rfl

theorem filesDropped_reclaim (h : d.Backed store)
    (hfree : ∀ level ∈ due p.tenancy p.now (d.fs.levelsOf store),
      Free p.stuck p.pinned d.fs level.1)
    (hcatalog : p.catalogFails = false)
    (hchosen : ∀ q ∈ chosen store p.tenancy p.budgetBytes p.wm d.walBytes
      (keptRows p.tenancy p.now store d), p.pinned.contains q = false ∧ p.stuck q = false) :
    (p.reclaim store d).elim [] ReclaimReport.filesDropped
      = chosen store p.tenancy p.budgetBytes p.wm d.walBytes
        (keptRows p.tenancy p.now store d) := by
  have hexact : (p.sweep store d).Exact false d.fs (due p.tenancy p.now (d.fs.levelsOf store)) :=
    exact_enforcePinned hfree
  have hsub : (keptRows p.tenancy p.now store d).Sublist d.catalog := List.filter_sublist
  have hthere : ∀ f ∈ keptRows p.tenancy p.now store d,
      ((p.sweep store d).fs.size f.path).isSome = true := by
    intro f hf
    have hout := (List.mem_filter.mp hf).2
    rw [hexact.size, if_neg]
    · exact h.there f (hsub.subset hf)
    · intro hin
      obtain ⟨-, level, hlevel, hpre⟩ := hin
      rw [Bool.not_eq_true', List.any_eq_false] at hout
      exact hout level hlevel (List.isPrefixOf_iff_prefix.mpr hpre)
  unfold reclaim chosen at *
  rw [measured_eq h hfree hcatalog]
  change ((if DiskUsage.pressure ⟨d.walBytes, _, p.budgetBytes⟩ p.wm = .normal then none
    else some _ : Option ReclaimReport)).elim _ _ = _
  split
  · next hnormal => exact (if_pos hnormal).symm
  · next hpressure =>
    rw [if_neg hpressure] at hchosen
    exact (filesDropped_reclaimPinned (h.nodup.sublist (hsub.map _)) hthere hchosen).trans
      (if_neg hpressure).symm

/-- **What a pass deletes**: the directories that are up, and what is chosen of the rest. -/
theorem size_effects (h : d.Backed store)
    (hfree : ∀ level ∈ due p.tenancy p.now (d.fs.levelsOf store),
      Free p.stuck p.pinned d.fs level.1)
    (hcatalog : p.catalogFails = false)
    (hchosen : ∀ q ∈ chosen store p.tenancy p.budgetBytes p.wm d.walBytes
      (keptRows p.tenancy p.now store d), p.pinned.contains q = false ∧ p.stuck q = false)
    (path : Path) :
    (d.applyAll (p.effects store d)).fs.size path =
      if (∃ level ∈ due p.tenancy p.now (d.fs.levelsOf store), level.1 <+: path) ∨
          path ∈ chosen store p.tenancy p.budgetBytes p.wm d.walBytes
            (keptRows p.tenancy p.now store d)
        then none else d.fs.size path := by
  have hexact : (p.sweep store d).Exact false d.fs (due p.tenancy p.now (d.fs.levelsOf store)) :=
    exact_enforcePinned hfree
  have hsize : (p.measured store d).fs.size path =
      if ∃ level ∈ due p.tenancy p.now (d.fs.levelsOf store), level.1 <+: path then none
      else d.fs.size path := by
    rw [measured_eq h hfree hcatalog]
    show (p.sweep store d).fs.size path = _
    rw [hexact.size]
    exact if_congr (and_iff_right rfl) rfl rfl
  rw [effects, Disk.applyAll_append]
  change ((p.measured store d).applyAll (p.relief store d)).fs.size path = _
  rw [size_relief, filesDropped_reclaim h hfree hcatalog hchosen, hsize]
  by_cases hup : ∃ level ∈ due p.tenancy p.now (d.fs.levelsOf store), level.1 <+: path
  · rw [if_pos hup, if_pos (Or.inl hup), ite_self]
  · rw [if_neg hup]
    refine if_congr ?_ rfl rfl
    rw [or_iff_right hup]

end Pass

end LogLess.Relief
