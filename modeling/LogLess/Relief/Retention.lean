import LogLess.Lib.Assoc
import LogLess.Partition

/-!
# Retention

A maintenance pass first deletes the directories whose time is up: one for each
`tenant=/index=/hour=/level=` of the store whose bucket is configured and whose hour ended
longer ago than the bucket's retention. A pinned file is never deleted; its directory loses
its other files one at a time.

A path is absolute here, and the store is one of them. What a sweep does to the disk is a
list of removals, so that it can be cut short by a crash at any of them. `stuck` are the
paths that the file system refuses to remove.
-/

namespace LogLess

/-- `LevelBuckets::by_name`. -/
def LevelBuckets.byName (b : LevelBuckets) (name : Text) : Option LevelBucket :=
  b.buckets.find? fun x => x.name == name

/-- `end_unix_secs`, which wraps. -/
def PartitionKey.endUnixSecs (k : PartitionKey) : ℕ := (k.epochHour + 1) * 3600 % 2 ^ 64

namespace Relief

/-! ## The file system -/

/-- The directories, and the files with their sizes, in the order they are listed in. -/
structure Fs where
  dirs : List Path
  files : List (Path × ℕ)
deriving DecidableEq

inductive Removal where
  | file (path : Path)
  | dir (path : Path)
deriving DecidableEq

def Removal.path : Removal → Path
  | .file p => p
  | .dir p => p

namespace Fs

variable (fs : Fs)

def size (p : Path) : Option ℕ := Assoc.get fs.files p

/-- The files in a directory, at any depth. -/
def under (dir : Path) : List (Path × ℕ) := fs.files.filter fun f => dir.isPrefixOf f.1

/-- A directory and those in it, the deepest ones first. -/
def dirsUnder (dir : Path) : List Path :=
  (fs.dirs.filter fun d => dir.isPrefixOf d).insertionSort fun a b => b.length ≤ a.length

def dirSize (dir : Path) : ℕ := ((fs.under dir).map Prod.snd).sum

def apply : Removal → Fs
  | .file p => { fs with files := Assoc.erase fs.files p }
  | .dir p => { fs with dirs := fs.dirs.filter (· != p) }

def applyAll (rs : List Removal) : Fs := rs.foldl apply fs

/-- `children`: the sub-directories of `dir` named `<pre><value>`, with the value. -/
def children (dir : Path) (pre : String) : List (Path × Text) :=
  let found := fs.dirs.filterMap fun p =>
    match p.getLast? with
    | some name =>
      if p.dropLast = dir then (pre.toList.isPrefixOf? name).map fun value => (p, value) else none
    | none => none
  found.insertionSort fun a b => (compare a.1 b.1).isLE = true

/-- The hour directories of a store with their level directories, where all names are of the
right shape. -/
def hoursOf (store : Path) : List (Path × List (Path × PartitionKey)) :=
  (fs.children store "tenant=").flatMap fun (tenantDir, tenant) =>
    if ¬ validIdent tenant then []
    else (fs.children tenantDir "index=").flatMap fun (indexDir, index) =>
      if ¬ validIdent index then []
      else (fs.children indexDir "hour=").filterMap fun (hourDir, hour) =>
        (parseHour hour).map fun epochHour =>
          (hourDir, (fs.children hourDir "level=").filterMap fun (path, level) =>
            if level = [] then none else some (path, ⟨tenant, index, epochHour, level, []⟩))

end Fs

/-! ## One sweep -/

/-- One expired level directory; its key has no node. -/
structure Expired where
  key : PartitionKey
  path : Path
  bytes : ℕ
deriving DecidableEq

structure RetentionReport where
  expired : List Expired
  bytesReclaimed : ℕ
  /-- Directories whose tenant, index or bucket is not in the configuration. -/
  orphanBuckets : List PartitionKey
  /-- What could not be removed. -/
  errors : List Path
  pinnedKept : ℕ
deriving DecidableEq

structure Sweep where
  fs : Fs
  removals : List Removal
  report : RetentionReport

def Sweep.start (fs : Fs) : Sweep := ⟨fs, [], ⟨[], 0, [], [], 0⟩⟩

def Sweep.remove (sw : Sweep) (rs : List Removal) : Sweep :=
  { sw with fs := sw.fs.applyAll rs, removals := sw.removals ++ rs }

/-- When a partition's bucket is up, in seconds: `saturating_add`. -/
def expiresAt (key : PartitionKey) (bucket : LevelBucket) : ℕ :=
  min (2 ^ 64 - 1) (key.endUnixSecs + bucket.retention / 10 ^ 9)

/-- Whether a partition is past its retention; `none` if its bucket is not configured. -/
def pastRetention (tenancy : Tenancy) (now : ℕ) (key : PartitionKey) : Option Bool :=
  ((tenancy.buckets key.tenant key.index).bind fun b => b.byName key.bucket).map fun bucket =>
    decide (expiresAt key bucket ≤ now)

section

variable (stuck : Path → Bool)

/-- `remove_dir_all`: what it removes before it is through or meets an error, and whether it
is through. -/
def removeDirAll (fs : Fs) (path : Path) : List Removal × Bool :=
  let all := (fs.under path).map (fun f => Removal.file f.1) ++ (fs.dirsUnder path).map Removal.dir
  (all.takeWhile fun r => !stuck r.path, all.all fun r => !stuck r.path)

/-- What `remove_unpinned` does in one directory. -/
structure Unpinned where
  removals : List Removal
  freed : ℕ
  kept : ℕ
  errors : List Path

/-- `remove_unpinned`: all files that are not pinned, and the directories below this one
that are left empty. -/
def removeUnpinned (pinned : Path → Bool) (dryRun : Bool) (fs : Fs) (path : Path) : Unpinned :=
  let files := fs.under path
  let gone := files.filter fun f => !pinned f.1 && (dryRun || !stuck f.1)
  let emptied := (fs.dirsUnder path).filter fun d =>
    d != path && (fs.under d).all (fun f => !pinned f.1 && !stuck f.1)
      && (fs.dirsUnder d).all fun e => !stuck e
  { removals := if dryRun then [] else gone.map (fun f => .file f.1) ++ emptied.map .dir
    freed := (gone.map Prod.snd).sum
    kept := (files.filter fun f => pinned f.1).length
    errors := (files.filter fun f => !pinned f.1 && !dryRun && stuck f.1).map Prod.fst }

variable (pins : List Path) (tenancy : Tenancy) (now : ℕ) (dryRun : Bool)

/-- The body of the loop over the level directories. -/
def expireLevel (sw : Sweep) (level : Path × PartitionKey) : Sweep :=
  let (path, key) := level
  match pastRetention tenancy now key with
  | none =>
    { sw with report := { sw.report with orphanBuckets := sw.report.orphanBuckets ++ [key] } }
  | some false => sw
  | some true =>
    let bytes := sw.fs.dirSize path
    if pins.any fun p => path.isPrefixOf p then
      -- what is not pinned, one file at a time, and the directory stays
      let r := removeUnpinned stuck (fun p => pins.contains p) dryRun sw.fs path
      let sw := sw.remove r.removals
      let report :=
        { sw.report with
          pinnedKept := sw.report.pinnedKept + r.kept
          errors := sw.report.errors ++ r.errors }
      if r.freed = 0 then { sw with report := report }
      else
        { sw with
          report :=
            { report with
              bytesReclaimed := report.bytesReclaimed + r.freed
              expired := report.expired ++ [⟨key, path, r.freed⟩] } }
    else
      let (removals, through) := if dryRun then ([], true) else removeDirAll stuck sw.fs path
      let sw := sw.remove removals
      if through then
        { sw with
          report :=
            { sw.report with
              bytesReclaimed := sw.report.bytesReclaimed + bytes
              expired := sw.report.expired ++ [⟨key, path, bytes⟩] } }
      else { sw with report := { sw.report with errors := sw.report.errors ++ [path] } }

/-- An hour directory with nothing in it is removed. -/
def tidy (sw : Sweep) (hourDir : Path) : Sweep :=
  if dryRun then sw
  else if (sw.fs.under hourDir).isEmpty && (sw.fs.dirsUnder hourDir).all (· == hourDir)
      && !stuck hourDir then
    sw.remove [.dir hourDir]
  else sw

def sweepHour (sw : Sweep) (hour : Path × List (Path × PartitionKey)) : Sweep :=
  tidy stuck dryRun (hour.2.foldl (expireLevel stuck pins tenancy now dryRun) sw) hour.1

/-- `enforce_pinned`, with the removals it makes. -/
def enforcePinned (store : Path) (fs : Fs) : Sweep :=
  if store ∉ fs.dirs then .start fs
  else
    let sw := (fs.hoursOf store).foldl (sweepHour stuck pins tenancy now dryRun) (.start fs)
    { sw with
      report :=
        { sw.report with
          expired := sw.report.expired.insertionSort fun a b => a.key.le b.key = true } }

end

/-- `enforce`. -/
def enforce (tenancy : Tenancy) (now : ℕ) (dryRun : Bool) (store : Path) (fs : Fs) : Sweep :=
  enforcePinned (fun _ => false) [] tenancy now dryRun store fs

/-! ## What removals do -/

namespace Fs

theorem applyAll_append (fs : Fs) (rs rs' : List Removal) :
    fs.applyAll (rs ++ rs') = (fs.applyAll rs).applyAll rs' := List.foldl_append

theorem size_apply (fs : Fs) (r : Removal) (p : Path) :
    (fs.apply r).size p = if r = .file p then none else fs.size p := by
  cases r with
  | file q =>
    rw [apply, size, Assoc.get_erase]
    by_cases h : p = q
    · simp [h]
    · simp [h, Ne.symm h, size]
  | dir q => simp [apply, size]

theorem size_applyAll (fs : Fs) (rs : List Removal) (p : Path) :
    (fs.applyAll rs).size p = if .file p ∈ rs then none else fs.size p := by
  induction rs generalizing fs with
  | nil => simp [applyAll]
  | cons r rs ih =>
    have hstep : fs.applyAll (r :: rs) = (fs.apply r).applyAll rs := rfl
    rw [hstep, ih, size_apply]
    by_cases hmem : Removal.file p ∈ rs
    · simp [hmem]
    · by_cases hr : r = .file p
      · simp [hr]
      · simp [hmem, hr, Ne.symm hr]

/-- Removals only take files and directories away. -/
theorem sublist_applyAll (fs : Fs) (rs : List Removal) :
    (fs.applyAll rs).files.Sublist fs.files ∧ (fs.applyAll rs).dirs.Sublist fs.dirs := by
  induction rs generalizing fs with
  | nil => exact ⟨List.Sublist.refl _, List.Sublist.refl _⟩
  | cons r rs ih =>
    obtain ⟨hfiles, hdirs⟩ := ih (fs.apply r)
    cases r with
    | file q => exact ⟨hfiles.trans List.filter_sublist, hdirs⟩
    | dir q => exact ⟨hfiles, hdirs.trans List.filter_sublist⟩

theorem mem_under {fs : Fs} {dir : Path} {f : Path × ℕ} :
    f ∈ fs.under dir ↔ f ∈ fs.files ∧ dir <+: f.1 := by
  rw [under, List.mem_filter, List.isPrefixOf_iff_prefix]

theorem mem_dirsUnder {fs : Fs} {dir d : Path} : d ∈ fs.dirsUnder dir ↔ d ∈ fs.dirs ∧ dir <+: d := by
  rw [dirsUnder, List.mem_insertionSort, List.mem_filter, List.isPrefixOf_iff_prefix]

end Fs

/-! ## What a sweep removes -/

/-- The whole files of a sweep: what it took away was in a directory it reports as expired,
or was empty. -/
structure Sweep.Tracks (fs : Fs) (levels : List (Path × PartitionKey)) (sw : Sweep) : Prop where
  replay : sw.fs = fs.applyAll sw.removals
  size : ∀ p, sw.fs.size p = fs.size p ∨ sw.fs.size p = none ∧
    (fs.size p = some 0 ∨ ∃ e ∈ sw.report.expired, e.path <+: p)
  expired : ∀ e ∈ sw.report.expired, (e.path, e.key) ∈ levels

/-- No removal in a directory that is up, and not pinned, is refused. -/
def Clears (stuck : Path → Bool) (pins : List Path) (tenancy : Tenancy) (now : ℕ)
    (levels : List (Path × PartitionKey)) (fs : Fs) : Bool :=
  levels.all fun level =>
    pastRetention tenancy now level.2 != some true
      || (pins.any fun p => level.1.isPrefixOf p)
      || (fs.under level.1).all (fun f => !stuck f.1)
        && (fs.dirsUnder level.1).all fun d => !stuck d

namespace Sweep.Tracks

variable {stuck : Path → Bool} {pins : List Path} {tenancy : Tenancy} {now : ℕ} {dryRun : Bool}
  {fs : Fs} {levels : List (Path × PartitionKey)} {sw : Sweep}

theorem start : (Sweep.start fs).Tracks fs levels :=
  ⟨rfl, fun _ => .inl rfl, by simp [Sweep.start]⟩

theorem sublist (h : sw.Tracks fs levels) :
    sw.fs.files.Sublist fs.files ∧ sw.fs.dirs.Sublist fs.dirs := by
  rw [h.replay]
  exact fs.sublist_applyAll _

/-- Removals in a directory that is then reported, or of empty files. -/
theorem remove (h : sw.Tracks fs levels) {rs : List Removal} {report : RetentionReport}
    (hmore : sw.report.expired ⊆ report.expired)
    (hexpired : ∀ e ∈ report.expired, (e.path, e.key) ∈ levels)
    (hrs : ∀ p, .file p ∈ rs → sw.fs.size p = some 0 ∨ ∃ e ∈ report.expired, e.path <+: p) :
    ({ sw.remove rs with report := report } : Sweep).Tracks fs levels where
  replay := by
    simp only [Sweep.remove]
    rw [Fs.applyAll_append, ← h.replay]
  size := by
    intro p
    simp only [Sweep.remove, Fs.size_applyAll]
    have hbefore : sw.fs.size p = fs.size p ∨ sw.fs.size p = none ∧
        (fs.size p = some 0 ∨ ∃ e ∈ report.expired, e.path <+: p) := by
      rcases h.size p with hsame | ⟨hgone, hempty | ⟨e, he, hpre⟩⟩
      · exact .inl hsame
      · exact .inr ⟨hgone, .inl hempty⟩
      · exact .inr ⟨hgone, .inr ⟨e, hmore he, hpre⟩⟩
    by_cases hmem : Removal.file p ∈ rs
    · rw [if_pos hmem]
      right
      refine ⟨rfl, ?_⟩
      rcases hrs p hmem with hempty | hcovered
      · rcases hbefore with hsame | ⟨-, hwhy⟩
        · exact .inl (hsame ▸ hempty)
        · exact hwhy
      · exact .inr hcovered
    · rw [if_neg hmem]
      exact hbefore
  expired := hexpired

/-- One level directory: if it is removed whole it is reported. -/
theorem expireLevel (h : sw.Tracks fs levels) (hclear : Clears stuck pins tenancy now levels fs)
    {level : Path × PartitionKey} (hlevel : level ∈ levels) :
    (Relief.expireLevel stuck pins tenancy now dryRun sw level).Tracks fs levels := by
  obtain ⟨path, key⟩ := level
  have hreport : ∀ report : RetentionReport, report.expired = sw.report.expired →
      ({ sw with report := report } : Sweep).Tracks fs levels := by
    intro report heq
    exact ⟨h.replay, fun p => heq ▸ h.size p, fun e he => h.expired e (heq ▸ he)⟩
  have hmore : ∀ e : Expired, sw.report.expired ⊆ sw.report.expired ++ [e] := fun e =>
    List.subset_append_left _ _
  have hexpired : ∀ bytes, ∀ e ∈ sw.report.expired ++ [⟨key, path, bytes⟩],
      (e.path, e.key) ∈ levels := by
    intro bytes e he
    rcases List.mem_append.mp he with he | he
    · exact h.expired e he
    · obtain rfl := List.mem_singleton.mp he
      exact hlevel
  have hreported : ∀ (bytes : ℕ) {p : Path}, path <+: p →
      ∃ e ∈ sw.report.expired ++ [⟨key, path, bytes⟩], e.path <+: p := fun bytes p hp =>
    ⟨_, List.mem_append_right _ (List.mem_singleton.mpr rfl), hp⟩
  unfold Relief.expireLevel
  simp only
  split
  · exact hreport _ rfl
  · exact h
  · next hpast =>
    split
    · next hpinned =>
      -- file by file: what is gone was below the directory, or all of it was empty
      set r := removeUnpinned stuck (fun p => pins.contains p) dryRun sw.fs path with hr
      have hgone : ∀ p, .file p ∈ r.removals → path <+: p ∧
          ∀ n, sw.fs.size p = some n → n ≤ r.freed := by
        intro p hp
        simp only [hr, removeUnpinned] at hp ⊢
        split at hp
        · cases hp
        · simp only [List.mem_append, List.mem_map, Removal.file.injEq, reduceCtorEq, and_false,
            exists_false, or_false] at hp
          obtain ⟨f, hf, rfl⟩ := hp
          obtain ⟨hunder, hfree⟩ := List.mem_filter.mp hf
          refine ⟨(Fs.mem_under.mp hunder).2, ?_⟩
          intro n hn
          refine List.single_le_sum (fun _ _ => Nat.zero_le _) n (List.mem_map.mpr ⟨(f.1, n), ?_, rfl⟩)
          exact List.mem_filter.mpr
            ⟨Fs.mem_under.mpr ⟨Assoc.mem_of_get hn, (Fs.mem_under.mp hunder).2⟩, hfree⟩
      split
      · next hzero =>
        refine h.remove (List.Subset.refl _) h.expired ?_
        intro p hp
        obtain ⟨hpre, hle⟩ := hgone p hp
        cases hn : sw.fs.size p with
        | none =>
          -- a removed file is there
          exfalso
          simp only [hr, removeUnpinned] at hp
          split at hp
          · cases hp
          · simp only [List.mem_append, List.mem_map, Removal.file.injEq, reduceCtorEq, and_false,
              exists_false, or_false] at hp
            obtain ⟨f, hf, rfl⟩ := hp
            have hmem := (Fs.mem_under.mp (List.mem_filter.mp hf).1).1
            rw [Fs.size, Assoc.get, Option.map_eq_none_iff, List.find?_eq_none] at hn
            exact hn f hmem (by simp)
        | some n =>
          left
          have := hle n hn
          exact congrArg some (by omega)
      · refine h.remove (hmore _) (hexpired _) ?_
        intro p hp
        exact .inr (hreported _ (hgone p hp).1)
    · next hpinned =>
      cases dryRun with
      | true =>
        refine @remove _ _ _ h [] _ (hmore _) (hexpired _) ?_
        simp
      | false =>
        have hthrough : (removeDirAll stuck sw.fs path).2 = true := by
          have hlevelClear := List.all_eq_true.mp hclear _ hlevel
          simp only [hpast, bne_self_eq_false, Bool.false_or, hpinned, Bool.and_eq_true,
            List.all_eq_true] at hlevelClear
          obtain ⟨hfiles, hdirs⟩ := hlevelClear
          simp only [removeDirAll, List.all_append, List.all_map, Bool.and_eq_true,
            List.all_eq_true, Function.comp_apply, Removal.path]
          refine ⟨fun f hf => hfiles f ?_, fun d hd => hdirs d ?_⟩
          · obtain ⟨hmem, hpre⟩ := Fs.mem_under.mp hf
            exact Fs.mem_under.mpr ⟨h.sublist.1.subset hmem, hpre⟩
          · obtain ⟨hmem, hpre⟩ := Fs.mem_dirsUnder.mp hd
            exact Fs.mem_dirsUnder.mpr ⟨h.sublist.2.subset hmem, hpre⟩
        simp only [Bool.false_eq_true, if_false, hthrough, if_true]
        refine h.remove (hmore _) (hexpired _) ?_
        intro p hp
        right
        refine hreported _ ?_
        have hall := List.takeWhile_subset _ hp
        simp only [List.mem_append, List.mem_map, Removal.file.injEq, reduceCtorEq, and_false,
          exists_false, or_false] at hall
        obtain ⟨f, hf, rfl⟩ := hall
        exact (Fs.mem_under.mp hf).2

theorem tidy (h : sw.Tracks fs levels) (hourDir : Path) :
    (Relief.tidy stuck dryRun sw hourDir).Tracks fs levels := by
  unfold Relief.tidy
  split
  · exact h
  · split
    · refine @remove _ _ _ h [.dir hourDir] _ (List.Subset.refl _) h.expired ?_
      intro p hp
      simp at hp
    · exact h

theorem sweepHour (h : sw.Tracks fs levels) (hclear : Clears stuck pins tenancy now levels fs)
    {hour : Path × List (Path × PartitionKey)} (hhour : hour.2 ⊆ levels) :
    (Relief.sweepHour stuck pins tenancy now dryRun sw hour).Tracks fs levels := by
  refine tidy ?_ hour.1
  obtain ⟨dir, own⟩ := hour
  simp only at hhour ⊢
  clear dir
  induction own generalizing sw with
  | nil => exact h
  | cons level own ih =>
    exact ih (h.expireLevel hclear (hhour List.mem_cons_self))
      fun x hx => hhour (List.mem_cons_of_mem _ hx)

end Sweep.Tracks

/-- The level directories of a store, if there is one. -/
def Fs.levelsOf (fs : Fs) (store : Path) : List (Path × PartitionKey) :=
  if store ∈ fs.dirs then (fs.hoursOf store).flatMap Prod.snd else []

theorem tracks_enforcePinned {stuck : Path → Bool} {pins : List Path} {tenancy : Tenancy} {now : ℕ}
    {dryRun : Bool} {store : Path} {fs : Fs}
    (hclear : Clears stuck pins tenancy now (fs.levelsOf store) fs) :
    (enforcePinned stuck pins tenancy now dryRun store fs).Tracks fs (fs.levelsOf store) := by
  unfold enforcePinned
  split
  · exact .start
  · next hstore =>
    have hfold : ∀ (hours : List (Path × List (Path × PartitionKey))) (sw : Sweep),
        (∀ hour ∈ hours, hour.2 ⊆ fs.levelsOf store) → sw.Tracks fs (fs.levelsOf store) →
        (hours.foldl (sweepHour stuck pins tenancy now dryRun) sw).Tracks fs
          (fs.levelsOf store) := by
      intro hours
      induction hours with
      | nil => exact fun _ _ h => h
      | cons hour hours ih =>
        intro sw hsub h
        exact ih _ (fun x hx => hsub x (List.mem_cons_of_mem _ hx))
          (h.sweepHour hclear (hsub hour List.mem_cons_self))
    have h := hfold (fs.hoursOf store) (.start fs)
      (fun hour hhour level hlevel => by
        rw [Fs.levelsOf, if_pos (not_not.mp hstore)]
        exact List.mem_flatMap.mpr ⟨hour, hhour, hlevel⟩) .start
    exact
      { replay := h.replay
        size := by
          intro p
          rcases h.size p with hsame | ⟨hgone, hempty | ⟨e, he, hpre⟩⟩
          · exact .inl hsame
          · exact .inr ⟨hgone, .inl hempty⟩
          · exact .inr ⟨hgone, .inr ⟨e, (List.mem_insertionSort _).mpr he, hpre⟩⟩
        expired := fun e he => h.expired e ((List.mem_insertionSort _).mp he) }

end Relief

end LogLess
