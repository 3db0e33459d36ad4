import LogLess.PartitionCodec
import LogLess.Relief.Exact

/-!
# What retention deletes

A sweep in which no file operation fails, over any tree and with any pins. What it removes is
a filter of the tree: the files that are not pinned, in the level directories that are up.
Level directories do not lie in one another, so what a sweep has removed does not change what
it finds in the next one, and the dry run reports what the real one does.

A level directory is up by the hour that `parse_hour` makes of its name, which is not always
the hour the name is the text of.
-/

namespace LogLess.Relief

/-- No file operation fails. -/
def unstuck : Path → Bool := fun _ => false

namespace Fs

variable {fs : Fs} {dir p q : Path}

theorem files_applyAll (fs : Fs) (rs : List Removal) :
    (fs.applyAll rs).files = fs.files.filter fun f => !rs.contains (.file f.1) := by
  induction rs generalizing fs with
  | nil => simp [applyAll]
  | cons r rs ih =>
    have hstep : fs.applyAll (r :: rs) = (fs.apply r).applyAll rs := rfl
    rw [hstep, ih]
    cases r with
    | file p =>
      rw [apply, Assoc.erase, List.filter_filter]
      refine List.filter_congr fun f _ => ?_
      rw [Bool.eq_iff_iff]
      simp [and_comm]
    | dir p =>
      rw [apply]
      refine List.filter_congr fun f _ => ?_
      simp

theorem under_eq_filter (fs : Fs) (dir : Path) :
    fs.under dir = fs.files.filter fun f => dir.isPrefixOf f.1 := rfl

/-- A tree: what is below the store is in a directory, a file is no directory, and each is
listed once. -/
structure Tree (store : Path) (fs : Fs) : Prop where
  parent : ∀ p, p ∈ fs.dirs ∨ p ∈ fs.files.map Prod.fst → store <+: p → p ≠ store →
    p.dropLast ∈ fs.dirs
  files : (fs.files.map Prod.fst).Nodup
  dirs : fs.dirs.Nodup
  apart : ∀ p ∈ fs.dirs, p ∉ fs.files.map Prod.fst

/-- All that a file or directory is below, from the store on, is a directory. -/
theorem Tree.mem_dirs {store : Path} (ht : Tree store fs) (hp : p ∈ fs.dirs ∨
    p ∈ fs.files.map Prod.fst) (hq : q <+: p) (hne : q ≠ p) (hstore : store <+: q) :
    q ∈ fs.dirs := by
  induction hn : p.length generalizing p with
  | zero =>
    have hnil := List.eq_nil_of_length_eq_zero hn
    rw [hnil, List.prefix_nil] at hq
    exact absurd (hq.trans hnil.symm) hne
  | succ n ih =>
    have hlt : q.length < p.length := by
      refine lt_of_le_of_ne hq.length_le fun heq => hne (hq.eq_of_length heq)
    have hparent := ht.parent p hp (hstore.trans hq) (by
      rintro rfl
      have := hstore.length_le
      omega)
    have hq' : q <+: p.dropLast :=
      List.prefix_of_prefix_length_le hq (List.dropLast_prefix p) (by simp; omega)
    by_cases heq : q = p.dropLast
    · rwa [heq]
    · exact ih (.inl hparent) hq' heq (by simp [hn])

theorem mem_children_iff {pre : String} {value : Text} :
    (p, value) ∈ fs.children dir pre ↔ p ∈ fs.dirs ∧ p = dir ++ [pre.toList ++ value] := by
  constructor
  · intro h
    exact ⟨mem_dirs_of_mem_children h, mem_children h⟩
  · rintro ⟨hmem, rfl⟩
    rw [children, List.mem_insertionSort, List.mem_filterMap]
    refine ⟨_, hmem, ?_⟩
    simp only [List.getLast?_concat, List.dropLast_concat, if_true, Text.isPrefixOf?_append,
      Option.map_some]

theorem nodup_children {pre : String} (h : fs.dirs.Nodup) :
    ((fs.children dir pre).map Prod.fst).Nodup := by
  unfold children
  refine ((List.perm_insertionSort _ _).map Prod.fst).nodup_iff.mpr ?_
  refine List.Sublist.nodup (Lists.sublist_filterMap (g := id) ?_ fs.dirs) (by simpa using h)
  intro p c hc
  split at hc
  · split at hc
    · obtain ⟨v, -, rfl⟩ := Option.map_eq_some_iff.mp hc
      rfl
    · cases hc
  · cases hc

/-- What is found below different directories of one depth is different. -/
theorem nodup_below {α β : Type} {n : ℕ} {cs : List (Path × α)} {found : Path × α → List (Path × β)}
    (hcs : (cs.map Prod.fst).Nodup) (hlength : ∀ c ∈ cs, c.1.length = n)
    (hfound : ∀ c ∈ cs, ((found c).map Prod.fst).Nodup)
    (hbelow : ∀ c ∈ cs, ∀ x ∈ found c, c.1 <+: x.1) : ((cs.flatMap found).map Prod.fst).Nodup := by
  induction cs with
  | nil => exact List.nodup_nil
  | cons c cs ih =>
    obtain ⟨hfresh, hcs⟩ := List.nodup_cons.mp hcs
    rw [List.flatMap_cons, List.map_append]
    refine List.Nodup.append (hfound c (by simp))
      (ih hcs (fun d hd => hlength d (by simp [hd])) (fun d hd => hfound d (by simp [hd]))
        fun d hd => hbelow d (by simp [hd])) ?_
    intro p hp hp'
    obtain ⟨x, hx, rfl⟩ := List.mem_map.mp hp
    obtain ⟨y, hy, heq⟩ := List.mem_map.mp hp'
    obtain ⟨d, hd, hy⟩ := List.mem_flatMap.mp hy
    have hc := hbelow c (by simp) x hx
    have hd' := hbelow d (by simp [hd]) y hy
    rw [heq] at hd'
    -- the two prefixes of one path are of one length
    have hsame : c.1 = d.1 := by
      refine (List.prefix_of_prefix_length_le hc hd' ?_).eq_of_length ?_
      all_goals rw [hlength c (by simp), hlength d (by simp [hd])]
    exact hfresh (List.mem_map.mpr ⟨d, hd, hsame.symm⟩)

theorem length_of_mem_children {pre : String} {c : Path × Text} (h : c ∈ fs.children dir pre) :
    c.1.length = dir.length + 1 := by
  rw [(mem_children_iff.mp h).2]
  simp

theorem prefix_of_mem_children {pre : String} {c : Path × Text} (h : c ∈ fs.children dir pre) :
    dir <+: c.1 := by
  rw [(mem_children_iff.mp h).2]
  exact List.prefix_append _ _

/-- The level directories of one hour directory. -/
def levelsIn (fs : Fs) (tenant index : Text) (hour : Path × Text) : List (Path × PartitionKey) :=
  ((parseHour hour.2).map fun epochHour =>
    (fs.children hour.1 "level=").filterMap fun (path, level) =>
      if level = [] then none else some (path, ⟨tenant, index, epochHour, level, []⟩)).getD []

/-- The level directories of a store, directory by directory. -/
theorem levelsOf_eq {store : Path} (h : store ∈ fs.dirs) :
    fs.levelsOf store = (fs.children store "tenant=").flatMap fun tenant =>
      if ¬ validIdent tenant.2 then [] else (fs.children tenant.1 "index=").flatMap fun index =>
        if ¬ validIdent index.2 then []
        else (fs.children index.1 "hour=").flatMap (fs.levelsIn tenant.2 index.2) := by
  rw [levelsOf, if_pos h, hoursOf, List.flatMap_assoc]
  refine List.flatMap_congr fun tenant _ => ?_
  obtain ⟨tenantDir, tenant⟩ := tenant
  simp only
  split
  · rfl
  · rw [List.flatMap_assoc]
    refine List.flatMap_congr fun index _ => ?_
    obtain ⟨indexDir, index⟩ := index
    simp only
    split
    · rfl
    · generalize fs.children indexDir "hour=" = hours
      induction hours with
      | nil => rfl
      | cons hour hours ih =>
        obtain ⟨hourDir, text⟩ := hour
        rw [List.flatMap_cons, ← ih, List.filterMap_cons, levelsIn]
        cases parseHour text with
        | none => rfl
        | some epochHour => rfl

/-- A level directory is one of the tree with the name of its key. -/
theorem mem_levelsIn {tenant index : Text} {hour : Path × Text} {path : Path} {key : PartitionKey} :
    (path, key) ∈ fs.levelsIn tenant index hour ↔
      parseHour hour.2 = some key.epochHour ∧ key.bucket ≠ [] ∧ path ∈ fs.dirs ∧
        path = hour.1 ++ ["level=".toList ++ key.bucket] ∧
        key = ⟨tenant, index, key.epochHour, key.bucket, []⟩ := by
  unfold levelsIn
  cases hparse : parseHour hour.2 with
  | none => simp
  | some epochHour =>
    simp only [Option.map_some, Option.getD_some, List.mem_filterMap, Option.some.injEq]
    constructor
    · rintro ⟨⟨p, level⟩, hchild, hsome⟩
      simp only at hsome
      split at hsome
      · cases hsome
      · next hne =>
        obtain ⟨rfl, rfl⟩ := Prod.mk.inj (Option.some.inj hsome)
        obtain ⟨hmem, heq⟩ := mem_children_iff.mp hchild
        exact ⟨rfl, hne, hmem, heq, rfl⟩
    · rintro ⟨rfl, hne, hmem, heq, hkey⟩
      refine ⟨(path, key.bucket), mem_children_iff.mpr ⟨hmem, heq⟩, ?_⟩
      simp only
      rw [if_neg hne, ← hkey]

theorem prefix_of_mem_levelsIn {tenant index : Text} {hour : Path × Text}
    {level : Path × PartitionKey} (h : level ∈ fs.levelsIn tenant index hour) :
    hour.1 <+: level.1 ∧ level.1.length = hour.1.length + 1 := by
  obtain ⟨-, -, -, hpath, -⟩ := mem_levelsIn.mp h
  rw [hpath]
  exact ⟨List.prefix_append _ _, by simp⟩

theorem nodup_levelsIn (h : fs.dirs.Nodup) (tenant index : Text) (hour : Path × Text) :
    ((fs.levelsIn tenant index hour).map Prod.fst).Nodup := by
  unfold levelsIn
  cases parseHour hour.2 with
  | none => exact List.nodup_nil
  | some epochHour =>
    refine List.Sublist.nodup (Lists.sublist_filterMap (g := Prod.fst) ?_ _) (nodup_children h)
    intro c level hlevel
    split at hlevel
    next p value =>
    split at hlevel
    · cases hlevel
    · rw [← Option.some.inj hlevel]

/-- Each level directory of a tree is found once. -/
theorem nodup_levelsOf {store : Path} (h : fs.dirs.Nodup) :
    ((fs.levelsOf store).map Prod.fst).Nodup := by
  by_cases hstore : store ∈ fs.dirs
  swap
  · rw [levelsOf, if_neg hstore]
    exact List.nodup_nil
  have hhours : ∀ tenant index : Path × Text,
      (((fs.children index.1 "hour=").flatMap (fs.levelsIn tenant.2 index.2)).map Prod.fst).Nodup :=
    fun tenant index => nodup_below (nodup_children h) (fun c hc => length_of_mem_children hc)
      (fun hour _ => nodup_levelsIn h tenant.2 index.2 hour)
      fun hour _ level hlevel => (prefix_of_mem_levelsIn hlevel).1
  rw [levelsOf_eq hstore]
  refine nodup_below (nodup_children h) (fun c hc => length_of_mem_children hc) ?_ ?_
  · intro tenant _
    split
    · exact List.nodup_nil
    · refine nodup_below (nodup_children h) (fun c hc => length_of_mem_children hc) ?_ ?_
      · intro index _
        split
        · exact List.nodup_nil
        · exact hhours tenant index
      · intro index _ level hlevel
        split at hlevel
        · cases hlevel
        · obtain ⟨hour, hhour, hlevel⟩ := List.mem_flatMap.mp hlevel
          exact (prefix_of_mem_children hhour).trans (prefix_of_mem_levelsIn hlevel).1
  · intro tenant _ level hlevel
    split at hlevel
    · cases hlevel
    · obtain ⟨index, hindex, hlevel⟩ := List.mem_flatMap.mp hlevel
      split at hlevel
      · cases hlevel
      · obtain ⟨hour, hhour, hlevel⟩ := List.mem_flatMap.mp hlevel
        exact (prefix_of_mem_children hindex).trans
          ((prefix_of_mem_children hhour).trans (prefix_of_mem_levelsIn hlevel).1)

/-- The path of a level directory. -/
def levelPath (store : Path) (tenant index hour level : Text) : Path :=
  store ++ ["tenant=".toList ++ tenant, "index=".toList ++ index, "hour=".toList ++ hour,
    "level=".toList ++ level]

/-- The level directories of a tree are its directories of that shape. -/
theorem mem_levelsOf_iff {store : Path} (ht : fs.Tree store) {path : Path} {key : PartitionKey} :
    (path, key) ∈ fs.levelsOf store ↔ path ∈ fs.dirs ∧ validIdent key.tenant = true ∧
      validIdent key.index = true ∧ key.bucket ≠ [] ∧ key.node = [] ∧
      ∃ hour, parseHour hour = some key.epochHour ∧
        path = levelPath store key.tenant key.index hour key.bucket := by
  constructor
  · intro h
    have hstore : store ∈ fs.dirs := by
      by_contra hstore
      rw [levelsOf, if_neg hstore] at h
      cases h
    rw [levelsOf_eq hstore] at h
    obtain ⟨tenant, htenant, h⟩ := List.mem_flatMap.mp h
    split at h
    · cases h
    next hvalid =>
    obtain ⟨index, hindex, h⟩ := List.mem_flatMap.mp h
    split at h
    · cases h
    next hvalid' =>
    obtain ⟨hour, hhour, h⟩ := List.mem_flatMap.mp h
    obtain ⟨hparse, hne, hmem, hpath, hkey⟩ := mem_levelsIn.mp h
    have htenant' : key.tenant = tenant.2 := by rw [hkey]
    have hindex' : key.index = index.2 := by rw [hkey]
    refine ⟨hmem, ?_, ?_, hne, by rw [hkey], hour.2, hparse, ?_⟩
    · rw [htenant']
      exact not_not.mp hvalid
    · rw [hindex']
      exact not_not.mp hvalid'
    · rw [hpath, (mem_children_iff.mp hhour).2, (mem_children_iff.mp hindex).2,
        (mem_children_iff.mp htenant).2, htenant', hindex']
      simp only [levelPath, List.append_assoc, List.cons_append, List.nil_append]
  · rintro ⟨hmem, htenant, hindex, hne, hnode, hour, hparse, hpath⟩
    -- the directories above it are there
    have hup : ∀ p (x : Text), p ++ [x] ∈ fs.dirs → store <+: p → p ∈ fs.dirs := by
      intro p x hx hpre
      have hparent := ht.parent (p ++ [x]) (.inl hx) (hpre.trans (List.prefix_append _ _)) (by
        intro heq
        have := hpre.length_le
        rw [← heq, List.length_append, List.length_singleton] at this
        omega)
      rwa [List.dropLast_concat] at hparent
    have hsplit : path = store ++ ["tenant=".toList ++ key.tenant] ++ ["index=".toList ++ key.index]
        ++ ["hour=".toList ++ hour] ++ ["level=".toList ++ key.bucket] := by
      rw [hpath]
      simp only [levelPath, List.append_assoc, List.cons_append, List.nil_append]
    rw [hsplit] at hmem
    have hhourDir := hup _ _ hmem (by simp only [List.append_assoc]; exact List.prefix_append _ _)
    have hindexDir := hup _ _ hhourDir
      (by simp only [List.append_assoc]; exact List.prefix_append _ _)
    have htenantDir := hup _ _ hindexDir (List.prefix_append _ _)
    have hstore := hup _ _ htenantDir (List.prefix_refl _)
    rw [levelsOf_eq hstore, List.mem_flatMap]
    refine ⟨(_, key.tenant), mem_children_iff.mpr ⟨htenantDir, rfl⟩, ?_⟩
    rw [if_neg (not_not.mpr htenant), List.mem_flatMap]
    refine ⟨(_, key.index), mem_children_iff.mpr ⟨hindexDir, rfl⟩, ?_⟩
    rw [if_neg (not_not.mpr hindex), List.mem_flatMap]
    refine ⟨(_, hour), mem_children_iff.mpr ⟨hhourDir, rfl⟩, ?_⟩
    refine mem_levelsIn.mpr ⟨hparse, hne, by rw [hsplit]; exact hmem, hsplit, ?_⟩
    rw [← hnode]

end Fs

/-! ## One level directory -/

section Sweep

variable {pins : List Path} {tenancy : Tenancy} {now : ℕ} {dryRun : Bool} {fs : Fs} {sw : Sweep}
  {up levels : List (Path × PartitionKey)} {level : Path × PartitionKey}

/-- A file that goes with these level directories. -/
def goesWith (pins : List Path) (up : List (Path × PartitionKey)) (p : Path) : Bool :=
  !pins.contains p && up.any fun level => level.1.isPrefixOf p

/-- The report after one level directory, as the tree has it. -/
def levelReport (pins : List Path) (tenancy : Tenancy) (now : ℕ) (fs : Fs) (r : RetentionReport)
    (level : Path × PartitionKey) : RetentionReport :=
  (expireLevel unstuck pins tenancy now true ⟨fs, [], r⟩ level).report

/-- What a directory is reported as depends on the files in it only. -/
theorem expireLevel_report (h : sw.fs.under level.1 = fs.under level.1) :
    (expireLevel unstuck pins tenancy now dryRun sw level).report
      = levelReport pins tenancy now fs sw.report level := by
  obtain ⟨path, key⟩ := level
  simp only at h
  unfold levelReport expireLevel
  simp only [Fs.dirSize, removeUnpinned, removeDirAll, unstuck, h, Sweep.remove]
  split
  · rfl
  · rfl
  · split
    · -- nothing is stuck, so what goes does not depend on the kind of run
      simp only [Bool.not_false, Bool.or_true, Bool.and_true, Bool.and_false]
      split <;> rfl
    · cases dryRun <;> simp

/-- What one level directory loses: its files that are not pinned, if it is up. -/
theorem expireLevel_files :
    (expireLevel unstuck pins tenancy now dryRun sw level).fs.files
      = sw.fs.files.filter fun f => dryRun || !goesWith pins (due tenancy now [level]) f.1 := by
  obtain ⟨path, key⟩ := level
  have hkeep : ∀ {keep : Path × ℕ → Bool}, (∀ f ∈ sw.fs.files, keep f = true) →
      sw.fs.files = sw.fs.files.filter keep := by
    intro keep h
    exact (List.filter_eq_self.mpr h).symm
  by_cases hpast : pastRetention tenancy now key = some true
  swap
  · have hdue : due tenancy now [(path, key)] = [] := by simp [due, hpast]
    rw [hdue]
    unfold expireLevel
    simp only
    split
    · exact hkeep (by simp [goesWith])
    · exact hkeep (by simp [goesWith])
    · next hup => exact absurd hup hpast
  · have hdue : due tenancy now [(path, key)] = [(path, key)] := by simp [due, hpast]
    have hgoes : ∀ p, goesWith pins [(path, key)] p = (!pins.contains p && path.isPrefixOf p) := by
      intro p
      simp [goesWith]
    rw [hdue]
    simp only [hgoes]
    cases dryRun with
    | true =>
      unfold expireLevel
      simp only [hpast, removeUnpinned, Bool.true_or, if_true, Sweep.remove, Fs.applyAll,
        List.foldl_nil]
      rw [List.filter_eq_self.mpr (fun _ _ => rfl)]
      split <;> (try split) <;> rfl
    | false =>
      -- removals that are of the files that go, and of directories
      have hgone : ∀ rs : List Removal, (∀ f ∈ sw.fs.files, Removal.file f.1 ∈ rs ↔
          pins.contains f.1 = false ∧ path <+: f.1) →
          (sw.fs.applyAll rs).files = sw.fs.files.filter fun f =>
            false || !(!pins.contains f.1 && path.isPrefixOf f.1) := by
        intro rs hrs
        rw [Fs.files_applyAll]
        refine List.filter_congr fun f hf => ?_
        rw [Bool.eq_iff_iff, Bool.false_or, Bool.not_eq_true', Bool.not_eq_true',
          ← Bool.not_eq_true, ← Bool.not_eq_true, List.contains_iff_mem, hrs f hf,
          Bool.and_eq_true, Bool.not_eq_true', List.isPrefixOf_iff_prefix]
      unfold expireLevel
      simp only [hpast, Bool.false_eq_true, if_false]
      split
      · have hrs : ∀ f ∈ sw.fs.files, Removal.file f.1 ∈
            (removeUnpinned unstuck (fun p => pins.contains p) false sw.fs path).removals ↔
              pins.contains f.1 = false ∧ path <+: f.1 := by
          intro f hf
          simp only [removeUnpinned, Bool.false_eq_true, if_false, List.mem_append, List.mem_map,
            List.mem_filter, Fs.mem_under, Removal.file.injEq, unstuck, Bool.not_false,
            Bool.or_true, Bool.and_true, Bool.not_eq_true', reduceCtorEq, and_false, exists_false,
            or_false]
          constructor
          · rintro ⟨g, ⟨⟨-, hpre⟩, hpin⟩, heq⟩
            rw [← heq]
            exact ⟨hpin, hpre⟩
          · rintro ⟨hpin, hpre⟩
            exact ⟨f, ⟨⟨hf, hpre⟩, hpin⟩, rfl⟩
        split <;> exact hgone _ hrs
      · next hnone =>
        have hfree : ∀ p, path <+: p → pins.contains p = false := by
          intro p hpre
          rw [← Bool.not_eq_true, List.contains_iff_mem]
          intro hmem
          exact hnone (List.any_eq_true.mpr ⟨p, hmem, List.isPrefixOf_iff_prefix.mpr hpre⟩)
        have hrs : ∀ f ∈ sw.fs.files, Removal.file f.1 ∈ (removeDirAll unstuck sw.fs path).1 ↔
            pins.contains f.1 = false ∧ path <+: f.1 := by
          intro f hf
          have hall : (removeDirAll unstuck sw.fs path).1
              = (sw.fs.under path).map (fun f => Removal.file f.1)
                ++ (sw.fs.dirsUnder path).map Removal.dir := by
            simp [removeDirAll, unstuck]
          rw [hall]
          simp only [List.mem_append, List.mem_map, Removal.file.injEq, Fs.mem_under,
            reduceCtorEq, and_false, exists_false, or_false]
          constructor
          · rintro ⟨g, ⟨hmem, hpre⟩, heq⟩
            rw [← heq]
            exact ⟨hfree _ hpre, hpre⟩
          · rintro ⟨-, hpre⟩
            exact ⟨f, ⟨hf, hpre⟩, rfl⟩
        split <;> exact hgone _ hrs

theorem tidy_report (hourDir : Path) : (tidy unstuck dryRun sw hourDir).report = sw.report := by
  unfold tidy
  split
  · rfl
  · split <;> rfl

theorem tidy_files (hourDir : Path) :
    (tidy unstuck dryRun sw hourDir).fs.files = sw.fs.files := by
  unfold tidy
  split
  · rfl
  · split <;> rfl

/-! ## A whole sweep -/

/-- A sweep that is through with some level directories: what is left of the files, and what
is reported. -/
structure Sweep.Swept (pins : List Path) (tenancy : Tenancy) (now : ℕ) (dryRun : Bool) (fs : Fs)
    (passed : List (Path × PartitionKey)) (sw : Sweep) : Prop where
  files : sw.fs.files
    = fs.files.filter fun f => dryRun || !goesWith pins (due tenancy now passed) f.1
  report : sw.report = passed.foldl (levelReport pins tenancy now fs) (Sweep.start fs).report

theorem goesWith_append (up up' : List (Path × PartitionKey)) (p : Path) :
    goesWith pins (up ++ up') p = (goesWith pins up p || goesWith pins up' p) := by
  simp only [goesWith, List.any_append]
  cases pins.contains p <;> simp

namespace Sweep.Swept

variable {passed : List (Path × PartitionKey)}

theorem start : (Sweep.start fs).Swept pins tenancy now dryRun fs [] :=
  ⟨(List.filter_eq_self.mpr fun f _ => by simp [goesWith, due]).symm, rfl⟩

/-- A directory that does not lie in one of those passed still has all its files. -/
theorem under_eq (h : sw.Swept pins tenancy now dryRun fs passed) {path : Path}
    (happart : ∀ l ∈ passed, ∀ p, l.1 <+: p → ¬ path <+: p) : sw.fs.under path = fs.under path := by
  rw [Fs.under_eq_filter, Fs.under_eq_filter, h.files, List.filter_filter]
  refine List.filter_congr fun f _ => ?_
  by_cases hpre : path.isPrefixOf f.1 = true
  · have hstays : goesWith pins (due tenancy now passed) f.1 = false := by
      rw [goesWith, Bool.and_eq_false_iff, List.any_eq_false]
      right
      intro l hl hl'
      exact happart l (mem_due.mp hl).1 f.1 (List.isPrefixOf_iff_prefix.mp hl')
        (List.isPrefixOf_iff_prefix.mp hpre)
    simp [hpre, hstays]
  · simp [hpre]

theorem expireLevel (h : sw.Swept pins tenancy now dryRun fs passed)
    (happart : ∀ l ∈ passed, ∀ p, l.1 <+: p → ¬ level.1 <+: p) :
    (Relief.expireLevel unstuck pins tenancy now dryRun sw level).Swept pins tenancy now dryRun fs
      (passed ++ [level]) where
  files := by
    have hdue : due tenancy now (passed ++ [level])
        = due tenancy now passed ++ due tenancy now [level] := List.filter_append passed [level]
    rw [expireLevel_files, h.files, List.filter_filter, hdue]
    refine List.filter_congr fun f _ => ?_
    rw [goesWith_append]
    cases dryRun <;> simp [Bool.and_comm]
  report := by
    rw [expireLevel_report (h.under_eq happart), h.report, List.foldl_append]
    rfl

theorem tidy (h : sw.Swept pins tenancy now dryRun fs passed) (hourDir : Path) :
    (Relief.tidy unstuck dryRun sw hourDir).Swept pins tenancy now dryRun fs passed :=
  ⟨by rw [tidy_files, h.files], by rw [tidy_report, h.report]⟩

/-- All level directories of an hour, if none lies in another one. -/
theorem sweepHour (h : sw.Swept pins tenancy now dryRun fs passed)
    {hour : Path × List (Path × PartitionKey)}
    (happart : (passed ++ hour.2).Pairwise fun l l' => ∀ p, l.1 <+: p → ¬ l'.1 <+: p) :
    (Relief.sweepHour unstuck pins tenancy now dryRun sw hour).Swept pins tenancy now dryRun fs
      (passed ++ hour.2) := by
  refine tidy ?_ hour.1
  obtain ⟨dir, own⟩ := hour
  simp only at happart ⊢
  clear dir
  induction own generalizing sw passed with
  | nil => simpa using h
  | cons level own ih =>
    have hnext : (passed ++ [level]) ++ own = passed ++ level :: own := by simp
    rw [← hnext] at happart ⊢
    refine ih (h.expireLevel ?_) happart
    intro l hl
    have hlast := (List.pairwise_append.mp (List.pairwise_append.mp happart).1).2.2
    exact hlast l hl level (List.mem_singleton.mpr rfl)

end Sweep.Swept

/-- No level directory of a tree lies in another one. -/
theorem apart_levelsOf {store : Path} (ht : fs.Tree store) :
    (fs.levelsOf store).Pairwise fun l l' => ∀ p, l.1 <+: p → ¬ l'.1 <+: p := by
  have hnodup : (fs.levelsOf store).Pairwise fun l l' => l.1 ≠ l'.1 :=
    List.pairwise_map.mp (Fs.nodup_levelsOf ht.dirs)
  refine hnodup.imp_of_mem fun {l l'} hl hl' hne p hpre hpre' => ?_
  obtain ⟨-, -, -, -, -, hour, -, hpath⟩ := (Fs.mem_levelsOf_iff ht).mp hl
  obtain ⟨-, -, -, -, -, hour', -, hpath'⟩ := (Fs.mem_levelsOf_iff ht).mp hl'
  have hlength : l.1.length = l'.1.length := by
    rw [hpath, hpath']
    simp [Fs.levelPath]
  exact hne ((List.prefix_of_prefix_length_le hpre hpre' hlength.le).eq_of_length hlength)

/-- The report with the expired directories in the order of their keys. -/
def RetentionReport.sorted (r : RetentionReport) : RetentionReport :=
  { r with expired := r.expired.insertionSort fun a b => a.key.le b.key = true }

/-- A sweep of a tree leaves the files that do not go with a level directory that is up, and
reports what is in the tree. -/
theorem swept_enforcePinned {store : Path} (ht : fs.Tree store) :
    (enforcePinned unstuck pins tenancy now dryRun store fs).fs.files
        = fs.files.filter (fun f =>
          dryRun || !goesWith pins (due tenancy now (fs.levelsOf store)) f.1) ∧
      (enforcePinned unstuck pins tenancy now dryRun store fs).report
        = if store ∈ fs.dirs then ((fs.levelsOf store).foldl (levelReport pins tenancy now fs)
          (Sweep.start fs).report).sorted else (Sweep.start fs).report := by
  have happart := apart_levelsOf ht
  unfold enforcePinned
  unfold Fs.levelsOf at happart ⊢
  by_cases hstore : store ∈ fs.dirs
  swap
  · simp only [if_pos hstore, if_neg hstore]
    exact ⟨(List.filter_eq_self.mpr fun f _ => by simp [goesWith, due]).symm, trivial⟩
  · rw [if_pos hstore] at happart
    simp only [if_pos hstore, if_neg (not_not.mpr hstore)]
    have hfold : ∀ (hours : List (Path × List (Path × PartitionKey))) (sw : Sweep)
        (passed : List (Path × PartitionKey)),
        (passed ++ hours.flatMap Prod.snd).Pairwise (fun l l' => ∀ p, l.1 <+: p → ¬ l'.1 <+: p) →
        sw.Swept pins tenancy now dryRun fs passed →
        (hours.foldl (sweepHour unstuck pins tenancy now dryRun) sw).Swept pins tenancy now dryRun
          fs (passed ++ hours.flatMap Prod.snd) := by
      intro hours
      induction hours with
      | nil =>
        intro sw passed _ h
        simpa using h
      | cons hour hours ih =>
        intro sw passed happart h
        rw [List.flatMap_cons, ← List.append_assoc] at happart ⊢
        exact ih _ _ happart (h.sweepHour (List.pairwise_append.mp happart).1)
    have h := hfold _ _ [] (by simpa using happart) .start
    rw [List.nil_append] at h
    exact ⟨h.files, by rw [← h.report]; rfl⟩

/-! ## The directories a sweep removes -/

/-- Each directory that is removed is in a level directory, or has nothing in it when it is
removed. -/
structure Sweep.Tidies (fs : Fs) (levels : List (Path × PartitionKey)) (sw : Sweep) : Prop where
  replay : sw.fs = fs.applyAll sw.removals
  empty : ∀ before d after, sw.removals = before ++ Removal.dir d :: after →
    (∃ level ∈ levels, level.1 <+: d) ∨
      (fs.applyAll before).under d = [] ∧ ∀ e ∈ (fs.applyAll before).dirsUnder d, e = d

namespace Sweep.Tidies

theorem start : (Sweep.start fs).Tidies fs levels :=
  ⟨rfl, fun before d after h => by cases before <;> cases h⟩

/-- More removals, each of a directory in a level directory or of an empty one. -/
theorem remove (h : sw.Tidies fs levels) {rs : List Removal} {report : RetentionReport}
    (hrs : ∀ before d after, rs = before ++ Removal.dir d :: after →
      (∃ level ∈ levels, level.1 <+: d) ∨
        (sw.fs.applyAll before).under d = [] ∧ ∀ e ∈ (sw.fs.applyAll before).dirsUnder d, e = d) :
    ({ sw.remove rs with report := report } : Sweep).Tidies fs levels where
  replay := by
    simp only [Sweep.remove]
    rw [Fs.applyAll_append, ← h.replay]
  empty := by
    intro before d after heq
    simp only [Sweep.remove] at heq
    rcases List.append_eq_append_iff.mp heq with ⟨mid, rfl, hmid⟩ | ⟨mid, hmid, hrest⟩
    · -- among the new ones
      rw [Fs.applyAll_append, ← h.replay]
      exact hrs mid d after hmid
    · cases mid with
      | nil =>
        rw [List.append_nil] at hmid
        rw [← hmid, ← h.replay]
        exact hrs [] d after hrest.symm
      | cons r mid =>
        obtain ⟨rfl, -⟩ := List.cons.inj hrest
        exact h.empty before d mid hmid

theorem expireLevel (h : sw.Tidies fs levels) (hlevel : level ∈ levels) :
    (Relief.expireLevel unstuck pins tenancy now dryRun sw level).Tidies fs levels := by
  obtain ⟨path, key⟩ := level
  have hin : ∀ {rs : List Removal}, (∀ d, Removal.dir d ∈ rs → path <+: d) →
      ∀ before d after, rs = before ++ Removal.dir d :: after →
        (∃ level ∈ levels, level.1 <+: d) ∨
          (sw.fs.applyAll before).under d = [] ∧
            ∀ e ∈ (sw.fs.applyAll before).dirsUnder d, e = d := by
    intro rs hrs before d after heq
    exact .inl ⟨(path, key), hlevel, hrs d (by rw [heq]; simp)⟩
  have hreport : ∀ report : RetentionReport, ({ sw with report := report } : Sweep).Tidies fs levels :=
    fun report => ⟨h.replay, h.empty⟩
  unfold Relief.expireLevel
  simp only
  split
  · exact hreport _
  · exact h
  · split
    · have hdirs : ∀ d, Removal.dir d ∈
          (removeUnpinned unstuck (fun p => pins.contains p) dryRun sw.fs path).removals →
          path <+: d := by
        intro d hd
        simp only [removeUnpinned] at hd
        split at hd
        · cases hd
        · simp only [List.mem_append, List.mem_map, reduceCtorEq, and_false, exists_false,
            Removal.dir.injEq, exists_eq_right, List.mem_filter, Fs.mem_dirsUnder, false_or] at hd
          exact hd.1.2
      split <;> exact h.remove (hin hdirs)
    · cases dryRun with
      | true =>
        simp only [if_true]
        exact h.remove (hin (by simp))
      | false =>
        have hdirs : ∀ d, Removal.dir d ∈ (removeDirAll unstuck sw.fs path).1 → path <+: d := by
          intro d hd
          have hmem := (List.takeWhile_sublist _).subset hd
          simp only [List.mem_append, List.mem_map, reduceCtorEq, and_false, exists_false,
            Removal.dir.injEq, exists_eq_right, Fs.mem_dirsUnder, false_or] at hmem
          exact hmem.2
        simp only [Bool.false_eq_true, if_false]
        split <;> exact h.remove (hin hdirs)

theorem tidy (h : sw.Tidies fs levels) (hourDir : Path) :
    (Relief.tidy unstuck dryRun sw hourDir).Tidies fs levels := by
  unfold Relief.tidy
  split
  · exact h
  · split
    · next hempty =>
      simp only [Bool.and_eq_true, List.isEmpty_iff, List.all_eq_true, beq_iff_eq] at hempty
      refine @remove fs sw levels h [.dir hourDir] sw.report ?_
      intro before d after heq
      cases before with
      | nil =>
        obtain rfl := Removal.dir.inj (List.cons.inj heq).1
        exact .inr ⟨hempty.1.1, hempty.1.2⟩
      | cons r before =>
        have := (List.cons.inj heq).2
        cases before <;> cases this
    · exact h

end Sweep.Tidies

theorem tidies_enforcePinned (store : Path) :
    (enforcePinned unstuck pins tenancy now dryRun store fs).Tidies fs (fs.levelsOf store) := by
  unfold enforcePinned
  split
  · exact .start
  · next hstore =>
    have hfold : ∀ (hours : List (Path × List (Path × PartitionKey))) (sw : Sweep),
        (∀ hour ∈ hours, hour.2 ⊆ fs.levelsOf store) → sw.Tidies fs (fs.levelsOf store) →
        (hours.foldl (sweepHour unstuck pins tenancy now dryRun) sw).Tidies fs
          (fs.levelsOf store) := by
      intro hours
      induction hours with
      | nil => exact fun _ _ h => h
      | cons hour hours ih =>
        intro sw hsub h
        refine ih _ (fun x hx => hsub x (List.mem_cons_of_mem _ hx)) (Sweep.Tidies.tidy ?_ hour.1)
        have hown := hsub hour List.mem_cons_self
        clear hsub
        generalize hour.2 = own at hown
        induction own generalizing sw with
        | nil => exact h
        | cons level own ih' =>
          exact ih' _ (h.expireLevel (hown List.mem_cons_self))
            fun x hx => hown (List.mem_cons_of_mem _ hx)
    have h := hfold _ (.start fs) (fun hour hhour level hlevel => by
      rw [Fs.levelsOf, if_pos (not_not.mp hstore)]
      exact List.mem_flatMap.mpr ⟨hour, hhour, hlevel⟩) .start
    exact ⟨h.replay, h.empty⟩

end Sweep

/-! ## The horizon -/

/-- The bucket a level directory is of, if it is configured. -/
def bucketOf (tenancy : Tenancy) (tenant index level : Text) : Option LevelBucket :=
  (tenancy.buckets tenant index).bind fun b => b.byName level

/-- The path is in a level directory of a bucket that is configured, and the hour in its name
ended at least the bucket's retention ago. -/
def PastHorizon (store : Path) (tenancy : Tenancy) (now : ℕ) (p : Path) : Prop :=
  ∃ tenant index level epochHour bucket rest, rest ≠ [] ∧
    p = Fs.levelPath store tenant index (formatHour epochHour) level ++ rest ∧
    bucketOf tenancy tenant index level = some bucket ∧
    (epochHour + 1) * 3600 * 10 ^ 9 + bucket.retention ≤ now * 10 ^ 9

/-- A sweep deletes exactly what is past its horizon and is not pinned, no directory above the
level directories that is not empty, and a dry run reports what the sweep does. -/
structure AtHorizon (store : Path) (tenancy : Tenancy) (now : ℕ) (pins : List Path) (fs : Fs) :
    Prop where
  removed : ∀ p n, fs.size p = some n →
    ((enforcePinned unstuck pins tenancy now false store fs).fs.size p = none ↔
      p ∉ pins ∧ PastHorizon store tenancy now p)
  directories : ∀ before d after,
    (enforcePinned unstuck pins tenancy now false store fs).removals
        = before ++ Removal.dir d :: after →
    (∃ tenant index hour level, Fs.levelPath store tenant index hour level <+: d) ∨
      (fs.applyAll before).under d = [] ∧ ∀ e ∈ (fs.applyAll before).dirsUnder d, e = d
  preview : (enforcePinned unstuck pins tenancy now true store fs).report
    = (enforcePinned unstuck pins tenancy now false store fs).report

/-- Where a file that is not pinned is in a level directory that is up, the name of the hour is
the one that is written for it, its end and the retention do not overflow, and no part of a
second is missing. -/
def Punctual (store : Path) (tenancy : Tenancy) (now : ℕ) (pins : List Path) (fs : Fs) : Prop :=
  ∀ tenant index hour level rest epochHour bucket,
    (fs.size (Fs.levelPath store tenant index hour level ++ rest)).isSome = true →
    Fs.levelPath store tenant index hour level ++ rest ∉ pins → rest ≠ [] →
    bucketOf tenancy tenant index level = some bucket → parseHour hour = some epochHour →
    expiresAt ⟨tenant, index, epochHour, level, []⟩ bucket ≤ now →
    canonicalHour hour = true ∧ (epochHour + 1) * 3600 + bucket.retention / 10 ^ 9 < 2 ^ 64 ∧
      (bucket.retention % 10 ^ 9 = 0 ∨
        (epochHour + 1) * 3600 + bucket.retention / 10 ^ 9 < now)

section Horizon

variable {store : Path} {tenancy : Tenancy} {now : ℕ} {pins : List Path} {fs : Fs} {p : Path}

theorem Fs.levelPath_inj {tenant index hour level tenant' index' hour' level' : Text}
    {rest rest' : Path} : levelPath store tenant index hour level ++ rest
        = levelPath store tenant' index' hour' level' ++ rest' ↔
      tenant = tenant' ∧ index = index' ∧ hour = hour' ∧ level = level' ∧ rest = rest' := by
  simp only [levelPath, List.append_assoc, List.cons_append, List.nil_append,
    List.append_cancel_left_eq, List.cons.injEq]

/-- The names of a bucket that is configured are those of directories. -/
theorem names_of_bucketOf {tenant index level : Text} {bucket : LevelBucket}
    (h : bucketOf tenancy tenant index level = some bucket) :
    validIdent tenant = true ∧ validIdent index = true ∧ level ≠ [] := by
  obtain ⟨b, hb, hname⟩ := Option.bind_eq_some_iff.mp h
  have hlevel : bucket.name = level := by simpa using List.find?_some hname
  have hnamed := (Tenancy.named_of_buckets hb).2 bucket (List.mem_of_find?_eq_some hname)
  rw [hlevel] at hnamed
  obtain ⟨c, hc, hi⟩ := Option.bind_eq_some_iff.mp hb
  obtain ⟨i, hi, -⟩ := Option.bind_eq_some_iff.mp hi
  have hindex : i.name = index := by simpa using List.find?_some hi
  have hcheck := (tenancy.checked_tenants.2 c (Tenancy.mem_of_configured hc)).2.2
  have hvalid := (checkIndexes_eq_ok hcheck i (List.mem_of_find?_eq_some hi)).1
  rw [hindex] at hvalid
  exact ⟨Tenancy.validIdent_of_configured hc, hvalid, hnamed⟩

theorem pastRetention_eq_true {key : PartitionKey} :
    pastRetention tenancy now key = some true ↔
      ∃ bucket, bucketOf tenancy key.tenant key.index key.bucket = some bucket ∧
        expiresAt key bucket ≤ now := by
  rw [pastRetention, ← bucketOf, Option.map_eq_some_iff]
  simp only [decide_eq_true_eq]

/-- What a sweep deletes: the files that are not pinned, in the level directories that are up. -/
theorem size_swept (ht : fs.Tree store) {n : ℕ} (hp : fs.size p = some n) :
    (enforcePinned unstuck pins tenancy now false store fs).fs.size p = none ↔
      p ∉ pins ∧ ∃ tenant index hour level epochHour bucket rest, rest ≠ [] ∧
        p = Fs.levelPath store tenant index hour level ++ rest ∧
        bucketOf tenancy tenant index level = some bucket ∧ parseHour hour = some epochHour ∧
        expiresAt ⟨tenant, index, epochHour, level, []⟩ bucket ≤ now := by
  have hfile : p ∈ fs.files.map Prod.fst := Assoc.mem_keys_of_get hp
  have hgone : (enforcePinned unstuck pins tenancy now false store fs).fs.size p = none ↔
      goesWith pins (due tenancy now (fs.levelsOf store)) p = true := by
    rw [Fs.size, (swept_enforcePinned ht).1]
    simp only [Bool.false_or]
    rw [Assoc.get_filter (fun q => !goesWith pins (due tenancy now (fs.levelsOf store)) q)]
    have hget : Assoc.get fs.files p = some n := hp
    cases goesWith pins (due tenancy now (fs.levelsOf store)) p <;> simp [hget]
  rw [hgone, goesWith, Bool.and_eq_true, Bool.not_eq_true', ← Bool.not_eq_true,
    List.contains_iff_mem, List.any_eq_true]
  refine and_congr_right fun _ => ?_
  constructor
  · rintro ⟨⟨path, key⟩, hlevel, hpre⟩
    obtain ⟨hmem, hpast⟩ := mem_due.mp hlevel
    obtain ⟨hdir, -, -, -, hnode, hour, hparse, hpath⟩ := (Fs.mem_levelsOf_iff ht).mp hmem
    obtain ⟨bucket, hbucket, hup⟩ := pastRetention_eq_true.mp hpast
    obtain ⟨rest, hrest⟩ := List.isPrefixOf_iff_prefix.mp hpre
    refine ⟨key.tenant, key.index, hour, key.bucket, key.epochHour, bucket, rest, ?_, ?_, hbucket,
      hparse, ?_⟩
    · -- a directory is not a file
      rintro rfl
      simp only [List.append_nil] at hrest
      rw [hrest] at hdir
      exact ht.apart p hdir hfile
    · rw [← hrest, ← hpath]
    · rwa [← hnode]
  · rintro ⟨tenant, index, hour, level, epochHour, bucket, rest, hrest, heq, hbucket, hparse, hup⟩
    obtain ⟨htenant, hindex, hlevel⟩ := names_of_bucketOf hbucket
    have hpre : Fs.levelPath store tenant index hour level <+: p := ⟨rest, heq.symm⟩
    have hdir : Fs.levelPath store tenant index hour level ∈ fs.dirs := by
      refine ht.mem_dirs (.inr hfile) hpre ?_ (List.prefix_append _ _)
      rw [heq]
      intro hsame
      exact hrest (List.self_eq_append_right.mp hsame)
    refine ⟨(_, ⟨tenant, index, epochHour, level, []⟩), mem_due.mpr ⟨?_, ?_⟩,
      List.isPrefixOf_iff_prefix.mpr hpre⟩
    · exact (Fs.mem_levelsOf_iff ht).mpr ⟨hdir, htenant, hindex, hlevel, rfl, hour, hparse, rfl⟩
    · exact pastRetention_eq_true.mpr ⟨bucket, hbucket, hup⟩

theorem expiresAt_le_iff {tenant index level node : Text} {epochHour : ℕ} {bucket : LevelBucket}
    (hfits : (epochHour + 1) * 3600 + bucket.retention / 10 ^ 9 < 2 ^ 64) :
    expiresAt ⟨tenant, index, epochHour, level, node⟩ bucket ≤ now ↔
      (epochHour + 1) * 3600 + bucket.retention / 10 ^ 9 ≤ now := by
  have hend : PartitionKey.endUnixSecs ⟨tenant, index, epochHour, level, node⟩
      = (epochHour + 1) * 3600 := by
    rw [PartitionKey.endUnixSecs, Nat.mod_eq_of_lt]
    exact (Nat.le_add_right _ _).trans_lt hfits
  rw [expiresAt, hend, Nat.min_eq_right (Nat.le_sub_one_of_lt hfits)]

theorem lt_of_secs_le {epochHour retention : ℕ} (h : (epochHour + 1) * 3600 + retention ≤ now)
    (hnow : now < 2 ^ 64) : epochHour < 2 ^ 64 := by
  omega

/-- An instant in whole seconds: a part of a second that is left over is one more to wait. -/
theorem nanos_le_iff (ends retention now : ℕ) : ends * 10 ^ 9 + retention ≤ now * 10 ^ 9 ↔
    ends + retention / 10 ^ 9 ≤ now ∧
      (retention % 10 ^ 9 = 0 ∨ ends + retention / 10 ^ 9 < now) := by
  omega

/-- Retention deletes exactly what is past its horizon when every level directory it clears
carries the hour it stands for. -/
theorem atHorizon_iff_punctual (ht : fs.Tree store) (hnow : now < 2 ^ 64) :
    AtHorizon store tenancy now pins fs ↔ Punctual store tenancy now pins fs := by
  constructor
  · intro h tenant index hour level rest epochHour bucket hsome hpin hrest hbucket hparse hup
    obtain ⟨n, hn⟩ := Option.isSome_iff_exists.mp hsome
    have hgone := (size_swept ht hn).mpr ⟨hpin, tenant, index, hour, level, epochHour, bucket, rest,
      hrest, rfl, hbucket, hparse, hup⟩
    obtain ⟨-, tenant', index', level', hour', bucket', rest', -, heq, hbucket', hpast⟩ :=
      (h.removed _ n hn).mp hgone
    obtain ⟨rfl, rfl, rfl, rfl, rfl⟩ := Fs.levelPath_inj.mp heq
    obtain rfl := Option.some.inj (hbucket.symm.trans hbucket')
    obtain ⟨hsecs, hpart⟩ := (nanos_le_iff _ _ _).mp hpast
    have hread := parseHour_formatHour (lt_of_secs_le hsecs hnow)
    obtain rfl := Option.some.inj (hread.symm.trans hparse)
    exact ⟨(formatHour_eq_iff hparse).mp rfl, hsecs.trans_lt hnow, hpart⟩
  · intro h
    refine ⟨?_, ?_, ?_⟩
    · intro p n hn
      rw [size_swept ht hn]
      refine and_congr_right fun hpin => ?_
      constructor
      · rintro ⟨tenant, index, hour, level, epochHour, bucket, rest, hrest, rfl, hbucket, hparse,
          hup⟩
        obtain ⟨hcanonical, hfits, hpart⟩ := h tenant index hour level rest epochHour bucket
          (Option.isSome_iff_exists.mpr ⟨n, hn⟩) hpin hrest hbucket hparse hup
        refine ⟨tenant, index, level, epochHour, bucket, rest, hrest, ?_, hbucket, ?_⟩
        · rw [(formatHour_eq_iff hparse).mpr hcanonical]
        · exact (nanos_le_iff _ _ _).mpr ⟨(expiresAt_le_iff hfits).mp hup, hpart⟩
      · rintro ⟨tenant, index, level, epochHour, bucket, rest, hrest, heq, hbucket, hpast⟩
        obtain ⟨hsecs, -⟩ := (nanos_le_iff _ _ _).mp hpast
        exact ⟨tenant, index, formatHour epochHour, level, epochHour, bucket, rest, hrest, heq,
          hbucket, parseHour_formatHour (lt_of_secs_le hsecs hnow),
          (expiresAt_le_iff (hsecs.trans_lt hnow)).mpr hsecs⟩
    · intro before d after hremovals
      rcases (tidies_enforcePinned store).empty before d after hremovals with
        ⟨⟨path, key⟩, hlevel, hpre⟩ | hempty
      · obtain ⟨-, -, -, -, -, hour, -, hpath⟩ := (Fs.mem_levelsOf_iff ht).mp hlevel
        exact .inl ⟨key.tenant, key.index, hour, key.bucket, hpath ▸ hpre⟩
      · exact .inr hempty
    · rw [(swept_enforcePinned ht).2, (swept_enforcePinned ht).2]

/-- One DEBUG file, in the directory of an hour. -/
def hourTree (hour : Text) : Fs :=
  let dir := Fs.levelPath exampleStore defaultTenant defaultIndex hour "debug".toList
  ⟨(List.range 5).map fun n => dir.take (n + 1), [(dir ++ ["a".toList], 2)]⟩

theorem tree_hourTree {hour : Text} (h : (∀ p ∈ (hourTree hour).dirs
    ++ (hourTree hour).files.map Prod.fst, exampleStore <+: p → p ≠ exampleStore →
      p.dropLast ∈ (hourTree hour).dirs) ∧ (hourTree hour).dirs.Nodup ∧
    ∀ p ∈ (hourTree hour).dirs, p ∉ (hourTree hour).files.map Prod.fst) :
    (hourTree hour).Tree exampleStore :=
  ⟨fun p hp => h.1 p (List.mem_append.mpr hp), List.nodup_singleton _, h.2.1, h.2.2⟩

theorem eq_of_size_hourTree {hour : Text} {n : ℕ} (h : (hourTree hour).size p = some n) :
    p = Fs.levelPath exampleStore defaultTenant defaultIndex hour "debug".toList ++ ["a".toList] := by
  have hmem := Assoc.mem_keys_of_get h
  exact List.mem_singleton.mp hmem

/-- The directory of an hour of March is up, and goes. -/
theorem atHorizon_march : AtHorizon exampleStore standardTenancy 1800000000 []
    (hourTree "2026-03-03T00".toList) := by
  have htree : (hourTree "2026-03-03T00".toList).Tree exampleStore :=
    tree_hourTree (by decide +kernel)
  refine (atHorizon_iff_punctual htree (by decide)).mpr ?_
  intro tenant index hour level rest epochHour bucket hsome hpin hrest hbucket hparse hup
  obtain ⟨n, hn⟩ := Option.isSome_iff_exists.mp hsome
  obtain ⟨rfl, rfl, rfl, rfl, rfl⟩ := Fs.levelPath_inj.mp (eq_of_size_hourTree hn)
  have hread : parseHour "2026-03-03T00".toList = some 492360 := by decide +kernel
  have hfound : (bucketOf standardTenancy defaultTenant defaultIndex "debug".toList).map
      LevelBucket.retention = some (24 * 3600 * 10 ^ 9) := by decide +kernel
  obtain rfl := Option.some.inj (hread.symm.trans hparse)
  rw [hbucket, Option.map_some, Option.some.injEq] at hfound
  refine ⟨by decide +kernel, ?_, .inl ?_⟩
  · rw [hfound]
    decide
  · rw [hfound]
    decide

/-- The directory of the 31st of February is taken for one of March, and goes as well. -/
theorem february_not_atHorizon : ¬ AtHorizon exampleStore standardTenancy 1800000000 []
    (hourTree "2026-02-31T00".toList) := by
  intro h
  have hsize : (hourTree "2026-02-31T00".toList).size (Fs.levelPath exampleStore defaultTenant
      defaultIndex "2026-02-31T00".toList "debug".toList ++ ["a".toList]) = some 2 := by
    decide +kernel
  have hgone : (enforcePinned unstuck [] standardTenancy 1800000000 false exampleStore
      (hourTree "2026-02-31T00".toList)).fs.size (Fs.levelPath exampleStore defaultTenant
        defaultIndex "2026-02-31T00".toList "debug".toList ++ ["a".toList]) = none := by
    decide +kernel
  obtain ⟨-, tenant, index, level, epochHour, bucket, rest, -, heq, -, hpast⟩ :=
    (h.removed _ _ hsize).mp hgone
  obtain ⟨-, -, hhour, -, -⟩ := Fs.levelPath_inj.mp heq
  obtain ⟨hsecs, -⟩ := (nanos_le_iff _ _ _).mp hpast
  have hread := parseHour_formatHour (lt_of_secs_le hsecs (by decide))
  have hmarch : parseHour "2026-02-31T00".toList = some 492360 := by decide +kernel
  rw [← hhour, hmarch, Option.some.injEq] at hread
  rw [← hread] at hhour
  revert hhour
  decide +kernel

end Horizon

end LogLess.Relief
