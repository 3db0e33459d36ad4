import LogLess.Store.CompactRuns

/-!
# What maintenance keeps

The files of a segment that is not merged are staged: a merge stopped before its commit, and the
next one will write them again. `Consistent` says that all other files are in the catalog and
have the records of the merged segments as their rows. Every change of a merge keeps it, and so
does a compaction that runs to its end and takes no staged file.
-/

namespace LogLess.Store

open Wal Frames

/-! ## Staged files -/

/-- The name the files of a segment have. -/
def Segment.fileName (s : Segment) : Text := fileNameForSegment s.id s.uuid

/-- A file of a segment that is not merged. -/
def Disk.staged (d : Disk) (arrived : List (WalDir × Segment)) (p : Path) : Bool :=
  arrived.any fun a =>
    !d.catalog.isSegmentMerged a.2.uuid && p.getLast? == some a.2.fileName

/-- The files that are not. -/
def Disk.settled (d : Disk) (arrived : List (WalDir × Segment)) : List Path :=
  d.paths.filter fun p => !d.staged arrived p

/-- A file in a partition it can be read back from, of a segment or of a compaction. -/
def Filed (tenancy : Tenancy) (arrived : List (WalDir × Segment)) (p : Path) : Prop :=
  ∃ key name, key.Valid ∧ p = key.dir ++ [name] ∧
    ((∃ u, name = fileNameForSegment 0 u) ∨
      ∃ a ∈ arrived, name = a.2.fileName ∧ key ∈ keysOf tenancy a.2)

structure Consistent (tenancy : Tenancy) (arrived : List (WalDir × Segment)) (d : Disk) :
    Prop where
  nodup : d.paths.Nodup
  nodup_catalog : d.catalog.paths.Nodup
  listed : ∀ p ∈ d.catalog.paths, p ∈ d.paths
  known : ∀ p ∈ d.paths, p ∈ d.catalog.paths ∨ d.staged arrived p = true
  filed : ∀ p ∈ d.paths, Filed tenancy arrived p
  rows : (((d.settled arrived).flatMap d.rowsAt).map bare).Perm (d.mergedRecords arrived)

/-- What holds of the segments: they are apart, none has the id of a compaction, and their
partitions can be told from paths. -/
structure Arrived (tenancy : Tenancy) (arrived : List (WalDir × Segment)) : Prop where
  apart : Apart arrived
  ids : ∀ a ∈ arrived, a.2.id ≠ 0
  valid : ∀ a ∈ arrived, ∀ key ∈ keysOf tenancy a.2, key.Valid

section

variable {tenancy : Tenancy} {arrived : List (WalDir × Segment)} {d d' : Disk}

@[simp] theorem getLast?_filePath (key : PartitionKey) (id : ℕ) (u : Uuid) :
    (filePath key id u).getLast? = some (fileNameForSegment id u) := List.getLast?_concat

/-- A name is that of one segment. -/
theorem Arrived.eq_of_fileName (h : Arrived tenancy arrived) {a b : WalDir × Segment}
    (ha : a ∈ arrived) (hb : b ∈ arrived) (hname : a.2.fileName = b.2.fileName) : a = b := by
  by_contra hne
  have hap := h.apart.of_ne ha hb hne
  obtain ⟨hid, hbytes⟩ := fileNameForSegment_inj.mp hname
  simp [Segment.apart, hid, hbytes] at hap

theorem staged_iff {p : Path} : d.staged arrived p = true ↔
    ∃ a ∈ arrived, d.catalog.isSegmentMerged a.2.uuid = false ∧
      p.getLast? = some a.2.fileName := by
  simp [Disk.staged, List.any_eq_true]

theorem Arrived.output_not_staged (h : Arrived tenancy arrived) (key : PartitionKey) (u : Uuid) :
    d.staged arrived (filePath key 0 u) = false := by
  rw [Bool.eq_false_iff]
  intro hstaged
  obtain ⟨a, ha, -, hname⟩ := staged_iff.mp hstaged
  rw [getLast?_filePath, Option.some.injEq, Segment.fileName] at hname
  exact h.ids a ha (fileNameForSegment_inj.mp hname).1.symm

/-- Only the store, the catalog's files and the merged segments matter. -/
theorem Consistent.congr (h : Consistent tenancy arrived d) (hstore : d'.store = d.store)
    (hcatalog : d'.catalog = d.catalog) : Consistent tenancy arrived d' := by
  obtain ⟨wal, store, catalog⟩ := d
  obtain ⟨wal', store', catalog'⟩ := d'
  subst hstore hcatalog
  exact ⟨h.nodup, h.nodup_catalog, h.listed, h.known, h.filed, h.rows⟩

/-! ## The changes of a merge -/

theorem Consistent.write (h : Consistent tenancy arrived d) (harr : Arrived tenancy arrived)
    {a : WalDir × Segment} (ha : a ∈ arrived)
    (hnew : d.catalog.isSegmentMerged a.2.uuid = false) {key : PartitionKey}
    (hkey : key ∈ keysOf tenancy a.2) (rows : List LogRecord) :
    Consistent tenancy arrived (d.apply (.write (filePath key a.2.id a.2.uuid) rows)) := by
  set path := filePath key a.2.id a.2.uuid with hpath
  have hstaged : d.staged arrived path = true :=
    staged_iff.mpr ⟨a, ha, hnew, getLast?_filePath key a.2.id a.2.uuid⟩
  have hpaths : (d.apply (.write path rows)).paths
      = d.paths.filter (fun p => decide (p ≠ path)) ++ [path] :=
    Assoc.keys_insert d.store path rows
  have hmem : ∀ {p}, p ∈ (d.apply (.write path rows)).paths ↔ p = path ∨ p ∈ d.paths :=
    Assoc.mem_keys_insert
  have hsettled : (d.apply (.write path rows)).settled arrived = d.settled arrived := by
    show List.filter (fun p => !d.staged arrived p) (d.apply (.write path rows)).paths = _
    rw [hpaths, List.filter_append, List.filter_filter]
    have hlast : [path].filter (fun p => !d.staged arrived p) = [] := by simp [hstaged]
    rw [hlast, List.append_nil, Disk.settled]
    refine List.filter_congr fun p _ => ?_
    by_cases hp : p = path
    · simp [hp, hstaged]
    · simp [hp]
  refine ⟨Assoc.nodup_keys_insert h.nodup _ _, h.nodup_catalog, ?_, ?_, ?_, ?_⟩
  · exact fun p hp => hmem.mpr (.inr (h.listed p hp))
  · intro p hp
    rcases hmem.mp hp with rfl | hp
    · exact .inr hstaged
    · exact h.known p hp
  · intro p hp
    rcases hmem.mp hp with rfl | hp
    · exact ⟨key, a.2.fileName, harr.valid a ha key hkey, rfl, .inr ⟨a, ha, rfl, hkey⟩⟩
    · exact h.filed p hp
  · rw [hsettled]
    have hrows : (d.settled arrived).flatMap (d.apply (.write path rows)).rowsAt
        = (d.settled arrived).flatMap d.rowsAt := by
      rw [List.flatMap_def, List.flatMap_def]
      congr 1
      refine List.map_congr_left fun p hp => ?_
      have hne : p ≠ path := by
        rintro rfl
        have := (List.mem_filter.mp hp).2
        simp [hstaged] at this
      show (Assoc.get (Assoc.insert d.store path rows) p).getD [] = _
      rw [Assoc.get_insert, if_neg hne]
      rfl
    rw [hrows]
    exact h.rows

theorem nodup_paths_upsertFiles {cat : Catalog} (h : cat.paths.Nodup) (fs : List FileEntry) :
    (fs.foldl Catalog.upsertFile cat).paths.Nodup := by
  induction fs generalizing cat with
  | nil => exact h
  | cons f fs ih => exact ih (Assoc.nodup_keys_insert h _ _)

theorem mem_paths_upsertFiles {cat : Catalog} {fs : List FileEntry} {p : Path} :
    p ∈ (fs.foldl Catalog.upsertFile cat).paths ↔ p ∈ cat.paths ∨ p ∈ fs.map FileEntry.path := by
  induction fs generalizing cat with
  | nil => simp
  | cons f fs ih =>
    have hone : p ∈ (cat.upsertFile f).paths ↔ p = f.path ∨ p ∈ cat.paths := Assoc.mem_keys_insert
    rw [List.foldl_cons, ih, hone, List.map_cons, List.mem_cons]
    tauto

theorem paths_upsertSightings (cat : Catalog) (ss : List TemplateSighting) :
    (ss.foldl Catalog.upsertSighting cat).paths = cat.paths := by simp [Catalog.paths]

/-- The files of a segment on the disk, once all of them are written. -/
theorem Consistent.files_of (h : Consistent tenancy arrived d) (harr : Arrived tenancy arrived)
    {a : WalDir × Segment} (ha : a ∈ arrived) {rows : List (PartitionKey × List LogRecord)}
    (hkeys : rows.map Prod.fst = keysOf tenancy a.2)
    (hrows : ∀ x ∈ rows, Assoc.get d.store (filePath x.1 a.2.id a.2.uuid) = some x.2) :
    (d.paths.filter fun p => p.getLast? == some a.2.fileName).Perm
      (rows.map fun x => filePath x.1 a.2.id a.2.uuid) := by
  have hnodup : (rows.map fun x => filePath x.1 a.2.id a.2.uuid).Nodup := by
    have hk : (rows.map Prod.fst).Nodup := by
      rw [hkeys]
      exact nodup_partitions tenancy a.2.records
    have := hk.map (f := fun k => filePath k a.2.id a.2.uuid) fun k l heq =>
      (filePath_inj.mp heq).1
    rwa [List.map_map] at this
  rw [List.perm_ext_iff_of_nodup (h.nodup.filter _) hnodup]
  intro p
  rw [List.mem_filter, List.mem_map, beq_iff_eq]
  constructor
  · rintro ⟨hp, hname⟩
    obtain ⟨key, name, -, rfl, hkind⟩ := h.filed p hp
    rw [List.getLast?_concat, Option.some.injEq] at hname
    rcases hkind with ⟨u, rfl⟩ | ⟨b, hb, rfl, hkey⟩
    · exact absurd (fileNameForSegment_inj.mp hname).1.symm (harr.ids a ha)
    · obtain rfl := harr.eq_of_fileName hb ha hname
      rw [← hkeys] at hkey
      obtain ⟨x, hx, rfl⟩ := List.mem_map.mp hkey
      exact ⟨x, hx, rfl⟩
  · rintro ⟨x, hx, rfl⟩
    exact ⟨Assoc.mem_keys_of_get (hrows x hx), getLast?_filePath _ _ _⟩

theorem Consistent.commit (h : Consistent tenancy arrived d) (harr : Arrived tenancy arrived)
    {a : WalDir × Segment} (ha : a ∈ arrived)
    (hnew : d.catalog.isSegmentMerged a.2.uuid = false)
    {rows : List (PartitionKey × List LogRecord)}
    (hkeys : rows.map Prod.fst = keysOf tenancy a.2)
    (hstore : ∀ x ∈ rows, Assoc.get d.store (filePath x.1 a.2.id a.2.uuid) = some x.2)
    (hrows : (bareRows rows).Perm (a.2.records.map fun r => bare (withoutRouting r)))
    (ss : List TemplateSighting) (now : ℕ) :
    Consistent tenancy arrived
      (d.apply (.commit a.2.id a.2.uuid (entriesOf a.2.id a.2.uuid rows) ss now)) := by
  have hfiles := h.files_of harr ha hkeys hstore
  have hrecords := mergedRecords_commit (d := d) harr.apart ha hnew
    (entriesOf a.2.id a.2.uuid rows) ss now
  have hmerged : ∀ v, (d.apply (.commit a.2.id a.2.uuid (entriesOf a.2.id a.2.uuid rows) ss
      now)).catalog.isSegmentMerged v = true ↔ v = a.2.uuid ∨ d.catalog.isSegmentMerged v = true :=
    fun v => Catalog.isSegmentMerged_commitMerge
  have hcatalog : ∀ p, p ∈ (d.apply (.commit a.2.id a.2.uuid (entriesOf a.2.id a.2.uuid rows) ss
      now)).catalog.paths ↔
      p ∈ d.catalog.paths ∨ p ∈ (entriesOf a.2.id a.2.uuid rows).map FileEntry.path := by
    intro p
    refine mem_paths_upsertFiles.trans ?_
    rw [paths_upsertSightings]
  have hentries : (entriesOf a.2.id a.2.uuid rows).map FileEntry.path
      = rows.map fun x => filePath x.1 a.2.id a.2.uuid := by
    simp [entriesOf, Function.comp_def]
  set d' := d.apply (.commit a.2.id a.2.uuid (entriesOf a.2.id a.2.uuid rows) ss now) with hd'
  have hpaths : d'.paths = d.paths := rfl
  -- what is staged now was staged, and is not of this segment
  have hstaged : ∀ p, d'.staged arrived p
      = (d.staged arrived p && !(p.getLast? == some a.2.fileName)) := by
    intro p
    rw [Bool.eq_iff_iff, Bool.and_eq_true, staged_iff, staged_iff, Bool.not_eq_true', beq_eq_false_iff_ne]
    constructor
    · rintro ⟨b, hb, hunmerged, hname⟩
      rw [Bool.eq_false_iff, ne_eq, hmerged, not_or, Bool.not_eq_true] at hunmerged
      refine ⟨⟨b, hb, hunmerged.2, hname⟩, fun hname' => hunmerged.1 ?_⟩
      rw [hname, Option.some.injEq] at hname'
      rw [harr.eq_of_fileName hb ha hname']
    · rintro ⟨⟨b, hb, hunmerged, hname⟩, hne⟩
      refine ⟨b, hb, ?_, hname⟩
      rw [Bool.eq_false_iff, ne_eq, hmerged, not_or, Bool.not_eq_true]
      refine ⟨fun huuid => hne ?_, hunmerged⟩
      rw [hname, harr.apart.eq_of_uuid_eq hb ha huuid]
  refine ⟨h.nodup, ?_, ?_, ?_, h.filed, ?_⟩
  · refine nodup_paths_upsertFiles ?_ _
    rw [paths_upsertSightings]
    exact h.nodup_catalog
  · intro p hp
    rcases (hcatalog p).mp hp with hp | hp
    · exact h.listed p hp
    · rw [hentries] at hp
      obtain ⟨x, hx, rfl⟩ := List.mem_map.mp hp
      exact Assoc.mem_keys_of_get (hstore x hx)
  · intro p hp
    rcases h.known p hp with hp' | hst
    · exact .inl ((hcatalog p).mpr (.inl hp'))
    · by_cases hname : p.getLast? = some a.2.fileName
      · left
        rw [hcatalog p, hentries]
        exact .inr (hfiles.mem_iff.mp (List.mem_filter.mpr ⟨hp, by simpa using hname⟩))
      · right
        rw [hstaged p, hst]
        simpa using hname
  · -- the files of the segment are settled now
    have hsettled : (d'.settled arrived).Perm
        (d.settled arrived ++ rows.map fun x => filePath x.1 a.2.id a.2.uuid) := by
      refine List.Perm.trans ?_ (List.Perm.append_left _ hfiles)
      rw [Disk.settled, hpaths, Disk.settled]
      refine (List.filter_append_perm (fun p => !d.staged arrived p) _).symm.trans ?_
      rw [List.filter_filter, List.filter_filter]
      refine List.Perm.of_eq (congrArg₂ _ (List.filter_congr fun p _ => ?_)
        (List.filter_congr fun p hp => ?_))
      · rw [hstaged p]
        cases d.staged arrived p <;> simp
      · rw [hstaged p]
        by_cases hname : p.getLast? = some a.2.fileName
        · have : d.staged arrived p = true := staged_iff.mpr ⟨a, ha, hnew, hname⟩
          simp [this, hname]
        · cases hs : d.staged arrived p <;> simp [hname]
    have hrowsAt : (rows.map fun x => filePath x.1 a.2.id a.2.uuid).flatMap d'.rowsAt
        = rows.flatMap Prod.snd := by
      rw [List.flatMap_map, List.flatMap_def, List.flatMap_def]
      congr 1
      refine List.map_congr_left fun x hx => ?_
      show (Assoc.get d.store _).getD [] = x.2
      rw [hstore x hx]
      rfl
    have hall := (hsettled.flatMap_right d'.rowsAt).map bare
    rw [List.flatMap_append, hrowsAt, List.map_append] at hall
    exact hall.trans ((h.rows.append hrows).trans hrecords.symm)

theorem Consistent.apply (h : Consistent tenancy arrived d) (harr : Arrived tenancy arrived)
    {taken : WalDir × Segment → Bool} {e : Effect} (hsound : Sound tenancy arrived taken d e) :
    Consistent tenancy arrived (d.apply e) := by
  cases e with
  | truncate dir id bytes => exact h.congr rfl rfl
  | write path rows =>
    obtain ⟨a, ha, -, hnew, key, hkey, rfl⟩ := hsound
    exact h.write harr ha hnew hkey rows
  | commit id uuid files ss now =>
    obtain ⟨a, ha, hnew, rfl, rfl, rows, hkeys, rfl, hstore, hrows⟩ := hsound
    exact h.commit harr ha hnew hkeys hstore hrows ss now
  | remove dir id => exact h.congr rfl rfl

/-! ## One compaction -/

/-- The output goes to a new path and has the rows of its inputs, which are files that are not
staged. -/
structure Replacement.Fits (r : Replacement) (arrived : List (WalDir × Segment)) (d : Disk) :
    Prop where
  valid : r.key.Valid
  nodup : r.consumed.Nodup
  present : ∀ p ∈ r.consumed, p ∈ d.paths
  settled : ∀ p ∈ r.consumed, d.staged arrived p = false
  fresh : r.path ∉ d.paths
  rows : r.rows.Perm (r.consumed.flatMap d.rowsAt)

/-- A path that a replacement leaves. -/
def Replacement.keeps (r : Replacement) (p : Path) : Bool := r.consumed.all fun q => decide (p ≠ q)

theorem Replacement.keeps_iff {r : Replacement} {p : Path} :
    r.keeps p = true ↔ p ∉ r.consumed := by
  simp only [Replacement.keeps, List.all_eq_true, decide_eq_true_eq]
  exact ⟨fun h hp => h p hp rfl, fun h q hq heq => h (heq ▸ hq)⟩

theorem changeAll_unlinks (d : Disk) (ps : List Path) :
    d.changeAll (ps.map .unlink) = { d with store := ps.foldl Assoc.erase d.store } := by
  induction ps generalizing d with
  | nil => rfl
  | cons p ps ih => exact ih _

theorem recordCompaction_eq (cat : Catalog) (output : FileEntry) (replaced : List Path) :
    cat.recordCompaction output replaced
      = { cat.upsertFile output with
          files := replaced.foldl Assoc.erase (cat.upsertFile output).files } := by
  unfold Catalog.recordCompaction
  generalize cat.upsertFile output = cat'
  induction replaced generalizing cat' with
  | nil => rfl
  | cons p ps ih => exact ih _

theorem replace_eq (d : Disk) (r : Replacement) :
    d.replace r = { d with
      store := (Assoc.insert d.store r.path r.rows).filter fun e => r.keeps e.1
      catalog := { d.catalog with
        files := (d.catalog.upsertFile ⟨r.path, r.key, fileStats r.rows⟩).files.filter
          fun e => r.keeps e.1 } } := by
  have hlast := changeAll_unlinks ((d.change (.write r.path r.rows)).change
    (.record ⟨r.path, r.key, fileStats r.rows⟩ r.consumed)) r.consumed
  refine hlast.trans ?_
  simp only [Disk.change, recordCompaction_eq, Assoc.foldl_erase]
  rfl

theorem Replacement.Fits.not_keeps {r : Replacement} (hr : r.Fits arrived d) :
    r.keeps r.path = true :=
  Replacement.keeps_iff.mpr fun h => hr.fresh (hr.present _ h)

theorem paths_replace {r : Replacement} (hr : r.Fits arrived d) :
    (d.replace r).paths = d.paths.filter r.keeps ++ [r.path] := by
  rw [replace_eq, Disk.paths, Assoc.insert_of_notMem hr.fresh, List.filter_append]
  simp only [List.filter_cons, List.filter_nil, hr.not_keeps, if_true, List.map_append,
    List.map_cons, List.map_nil]
  rw [Disk.paths, List.filter_map]
  rfl

theorem catalog_paths_replace {r : Replacement} (hr : r.Fits arrived d)
    (hlisted : ∀ p ∈ d.catalog.paths, p ∈ d.paths) :
    (d.replace r).catalog.paths = d.catalog.paths.filter r.keeps ++ [r.path] := by
  have hfresh : r.path ∉ d.catalog.files.map Prod.fst := fun h => hr.fresh (hlisted _ h)
  rw [replace_eq, Catalog.paths, Catalog.upsertFile]
  simp only
  rw [Assoc.insert_of_notMem hfresh, List.filter_append]
  simp only [List.filter_cons, List.filter_nil, hr.not_keeps, if_true, List.map_append,
    List.map_cons, List.map_nil]
  rw [Catalog.paths, List.filter_map]
  rfl

theorem rowsAt_replace {r : Replacement} (p : Path) :
    (d.replace r).rowsAt p
      = if r.keeps p then if p = r.path then r.rows else d.rowsAt p else [] := by
  rw [replace_eq, Disk.rowsAt]
  simp only
  rw [Assoc.get_filter r.keeps, Assoc.get_insert]
  split
  · split <;> rfl
  · rfl

theorem staged_replace (r : Replacement) (p : Path) :
    (d.replace r).staged arrived p = d.staged arrived p := by
  rw [replace_eq]
  rfl

/-- A compaction that runs to its end keeps the rows. -/
theorem Consistent.replace (h : Consistent tenancy arrived d) (harr : Arrived tenancy arrived)
    {r : Replacement} (hr : r.Fits arrived d) : Consistent tenancy arrived (d.replace r) := by
  have hpaths := paths_replace hr
  have hcatalog := catalog_paths_replace hr h.listed
  have hout : d.staged arrived r.path = false := harr.output_not_staged r.key r.uuid
  have hnodup : ∀ {l : List Path}, l.Nodup → r.path ∉ l → (l.filter r.keeps ++ [r.path]).Nodup := by
    intro l hl hnot
    rw [List.nodup_append]
    refine ⟨hl.filter _, List.nodup_singleton _, ?_⟩
    intro p hp q hq
    rw [List.mem_singleton.mp hq]
    rintro rfl
    exact hnot (List.mem_of_mem_filter hp)
  refine ⟨?_, ?_, ?_, ?_, ?_, ?_⟩
  · rw [hpaths]
    exact hnodup h.nodup hr.fresh
  · rw [hcatalog]
    exact hnodup h.nodup_catalog fun hp => hr.fresh (h.listed _ hp)
  · intro p hp
    rw [hcatalog] at hp
    rw [hpaths]
    rcases List.mem_append.mp hp with hp | hp
    · obtain ⟨hp, hkeeps⟩ := List.mem_filter.mp hp
      exact List.mem_append_left _ (List.mem_filter.mpr ⟨h.listed p hp, hkeeps⟩)
    · exact List.mem_append_right _ hp
  · intro p hp
    rw [hpaths] at hp
    rw [hcatalog, staged_replace]
    rcases List.mem_append.mp hp with hp | hp
    · obtain ⟨hp, hkeeps⟩ := List.mem_filter.mp hp
      rcases h.known p hp with hp | hp
      · exact .inl (List.mem_append_left _ (List.mem_filter.mpr ⟨hp, hkeeps⟩))
      · exact .inr hp
    · exact .inl (List.mem_append_right _ hp)
  · intro p hp
    rw [hpaths] at hp
    rcases List.mem_append.mp hp with hp | hp
    · exact h.filed p (List.mem_of_mem_filter hp)
    · rw [List.mem_singleton.mp hp]
      exact ⟨r.key, _, hr.valid, rfl, .inl ⟨r.uuid, rfl⟩⟩
  · have hsettled : (d.replace r).settled arrived
        = (d.settled arrived).filter r.keeps ++ [r.path] := by
      rw [Disk.settled, hpaths, List.filter_append, Disk.settled, List.filter_filter,
        List.filter_filter]
      simp only [staged_replace, List.filter_cons, List.filter_nil, hout, Bool.not_false, if_true]
      congr 1
      exact List.filter_congr fun p _ => Bool.and_comm _ _
    -- the inputs are the settled files that go
    have hgone : ((d.settled arrived).filter fun p => !r.keeps p).Perm r.consumed := by
      unfold Disk.settled
      rw [List.perm_ext_iff_of_nodup ((h.nodup.filter _).filter _) hr.nodup]
      intro p
      have hkeeps : (!r.keeps p) = true ↔ p ∈ r.consumed := by
        rw [Bool.not_eq_true', ← Bool.not_eq_true, Replacement.keeps_iff, not_not]
      rw [List.mem_filter, List.mem_filter, hkeeps]
      exact ⟨fun hp => hp.2, fun hp => ⟨⟨hr.present p hp, by simp [hr.settled p hp]⟩, hp⟩⟩
    have hkept : ((d.settled arrived).filter r.keeps).flatMap (d.replace r).rowsAt
        = ((d.settled arrived).filter r.keeps).flatMap d.rowsAt := by
      rw [List.flatMap_def, List.flatMap_def]
      congr 1
      refine List.map_congr_left fun p hp => ?_
      obtain ⟨hp, hkeeps⟩ := List.mem_filter.mp hp
      have hne : p ≠ r.path := by
        rintro rfl
        exact hr.fresh (List.mem_of_mem_filter hp)
      rw [rowsAt_replace, if_pos hkeeps, if_neg hne]
    have houtput : (d.replace r).rowsAt r.path = r.rows := by
      rw [rowsAt_replace, if_pos hr.not_keeps, if_pos rfl]
    have hrows : ((d.replace r).settled arrived).flatMap (d.replace r).rowsAt
        |>.Perm ((d.settled arrived).flatMap d.rowsAt) := by
      rw [hsettled, List.flatMap_append, hkept, List.flatMap_singleton, houtput]
      refine (List.Perm.append_left _ (hr.rows.trans (hgone.flatMap_right d.rowsAt).symm)).trans ?_
      rw [← List.flatMap_append]
      exact (List.filter_append_perm _ _).flatMap_right _
    have hmerged : (d.replace r).mergedRecords arrived = d.mergedRecords arrived := by
      rw [replace_eq]
      rfl
    rw [hmerged]
    exact (hrows.map bare).trans h.rows

/-! ## Arrivals and rebuilds -/

/-- A new segment has no file yet. -/
theorem Consistent.arrive (h : Consistent tenancy arrived d) {dir : WalDir} {s : Segment}
    (harr : Arrived tenancy (arrived ++ [(dir, s)])) (hapart : ∀ a ∈ arrived, a.2.apart s = true)
    (hnew : d.catalog.isSegmentMerged s.uuid = false) (f : WalFile) :
    Consistent tenancy (arrived ++ [(dir, s)]) (d.addFile dir f) := by
  have hs : (dir, s) ∈ arrived ++ [(dir, s)] := by simp
  have hname : ∀ p ∈ d.paths, p.getLast? ≠ some s.fileName := by
    intro p hp hname
    obtain ⟨key, name, -, rfl, hkind⟩ := h.filed p hp
    rw [List.getLast?_concat, Option.some.injEq] at hname
    rcases hkind with ⟨u, rfl⟩ | ⟨a, ha, rfl, -⟩
    · exact harr.ids (dir, s) hs (fileNameForSegment_inj.mp hname).1.symm
    · have := harr.eq_of_fileName (List.mem_append_left _ ha) hs hname
      have hap := hapart a ha
      simp [this, Segment.apart] at hap
  have hstaged : ∀ p ∈ d.paths, (d.addFile dir f).staged (arrived ++ [(dir, s)]) p
      = d.staged arrived p := by
    intro p hp
    have := hname p hp
    simp [Disk.staged, Disk.addFile, this]
  refine ⟨h.nodup, h.nodup_catalog, h.listed, ?_, ?_, ?_⟩
  · intro p hp
    rw [hstaged p hp]
    exact h.known p hp
  · intro p hp
    obtain ⟨key, name, hvalid, hpath, hkind⟩ := h.filed p hp
    refine ⟨key, name, hvalid, hpath, hkind.imp_right ?_⟩
    rintro ⟨a, ha, hrest⟩
    exact ⟨a, List.mem_append_left _ ha, hrest⟩
  · have hsettled : (d.addFile dir f).settled (arrived ++ [(dir, s)]) = d.settled arrived :=
      List.filter_congr fun p hp => by rw [hstaged p hp]
    have hmerged : (d.addFile dir f).mergedRecords (arrived ++ [(dir, s)])
        = d.mergedRecords arrived := by
      simp [Disk.mergedRecords, Disk.addFile, List.filter_append, hnew]
    rw [hsettled, hmerged]
    exact h.rows

theorem perm_listing (d : Disk) : d.listing.Perm d.paths := List.perm_insertionSort _ _

theorem Consistent.keyOfPath (h : Consistent tenancy arrived d) {p : Path} (hp : p ∈ d.paths) :
    ∃ key, key.Valid ∧ LogLess.keyOfPath p = some key := by
  obtain ⟨key, name, hvalid, rfl, -⟩ := h.filed p hp
  exact ⟨key, hvalid, keyOfPath_dir hvalid name⟩

theorem Consistent.rebuild (h : Consistent tenancy arrived d) :
    Consistent tenancy arrived d.rebuild := by
  have hstaged : ∀ p, d.rebuild.staged arrived p = d.staged arrived p := by
    intro p
    simp [Disk.staged, Disk.rebuild, Catalog.isSegmentMerged]
  have hpaths : ∀ p, p ∈ d.rebuild.catalog.paths ↔ p ∈ d.paths := by
    intro p
    refine mem_paths_upsertFiles.trans ?_
    have hnil : p ∉ Catalog.paths { d.catalog with files := [] } := List.not_mem_nil
    rw [or_iff_right hnil, ← (perm_listing d).mem_iff, List.mem_map]
    constructor
    · rintro ⟨e, he, rfl⟩
      obtain ⟨q, hq, he⟩ := List.mem_filterMap.mp he
      obtain ⟨key, -, rfl⟩ := Option.map_eq_some_iff.mp he
      exact hq
    · intro hp
      obtain ⟨key, -, hkey⟩ := h.keyOfPath ((perm_listing d).mem_iff.mp hp)
      exact ⟨_, List.mem_filterMap.mpr ⟨p, hp, by rw [hkey]; rfl⟩, rfl⟩
  refine ⟨h.nodup, ?_, ?_, ?_, h.filed, ?_⟩
  · refine nodup_paths_upsertFiles ?_ _
    exact List.nodup_nil
  · exact fun p hp => (hpaths p).mp hp
  · exact fun p hp => .inl ((hpaths p).mpr hp)
  · have hsettled : d.rebuild.settled arrived = d.settled arrived :=
      List.filter_congr fun p _ => by rw [hstaged p]
    have hmerged : d.rebuild.mergedRecords arrived = d.mergedRecords arrived := by
      simp [Disk.mergedRecords, Disk.rebuild, Catalog.isSegmentMerged]
    rw [hsettled, hmerged]
    exact h.rows

/-! ## The loop of a compaction -/

variable {config : CompactConfig} {env : Surroundings}

theorem takeInputs_eq (config : CompactConfig) (env : Surroundings) (consumed : List Path)
    (before : ℕ) (candidates : List Path) :
    ∃ n, takeInputs config env consumed before candidates = consumed ++ candidates.take n := by
  induction candidates generalizing consumed before with
  | nil => exact ⟨0, by simp [takeInputs]⟩
  | cons p candidates ih =>
    unfold takeInputs
    simp only
    split
    · exact ⟨0, by simp⟩
    · obtain ⟨n, hn⟩ := ih (consumed ++ [p]) (before + (env.size p).getD 0)
      exact ⟨n + 1, by rw [hn, List.take_succ_cons, List.append_assoc, List.singleton_append]⟩

/-- Inputs are files of the partition. -/
theorem inputs_subperm {files consumed : List Path} (h : inputs config env files = some consumed) :
    consumed.Subperm files := by
  unfold inputs at h
  simp only at h
  split at h
  · cases h
  · split at h
    · cases h
    · split at h
      · cases h
      · split at h
        · cases h
        · obtain rfl := Option.some.inj h
          obtain ⟨n, hn⟩ := takeInputs_eq config env [] 0
            ((files.insertionSort fun a b => (compare a b).isLE = true).filter
              fun p => (env.size p).any fun n => n < config.keepAboveBytes)
          rw [hn, List.nil_append]
          exact ((List.take_sublist _ _).trans List.filter_sublist).subperm.trans
            (List.perm_insertionSort _ files).subperm

/-- The output is written to a new path, and no input is staged. -/
def Replacement.Fresh (arrived : List (WalDir × Segment)) (d : Disk) (r : Replacement) : Prop :=
  r.path ∉ d.paths ∧ ∀ p ∈ r.consumed, d.staged arrived p = false

/-- The partitions still to be looked at are those of files that are there. -/
structure Pending (parts : List (PartitionKey × List Path)) (d : Disk) : Prop where
  keys : (parts.map Prod.fst).Nodup
  valid : ∀ x ∈ parts, x.1.Valid
  nodup : ∀ x ∈ parts, x.2.Nodup
  present : ∀ x ∈ parts, ∀ p ∈ x.2, p ∈ d.paths ∧ LogLess.keyOfPath p = some x.1

theorem Pending.tail {x : PartitionKey × List Path} {parts : List (PartitionKey × List Path)}
    (h : Pending (x :: parts) d) : Pending parts d :=
  ⟨(List.nodup_cons.mp h.keys).2, fun y hy => h.valid y (List.mem_cons_of_mem x hy),
    fun y hy => h.nodup y (List.mem_cons_of_mem x hy),
    fun y hy => h.present y (List.mem_cons_of_mem x hy)⟩

/-- A replacement in one partition leaves the files of the others. -/
theorem Pending.replace {x : PartitionKey × List Path} {parts : List (PartitionKey × List Path)}
    (h : Pending (x :: parts) d) {r : Replacement} (hr : r.Fits arrived d)
    (hconsumed : ∀ p ∈ r.consumed, p ∈ x.2) : Pending parts (d.replace r) := by
  refine ⟨h.tail.keys, h.tail.valid, h.tail.nodup, fun y hy p hp => ?_⟩
  obtain ⟨hmem, hkey⟩ := h.tail.present y hy p hp
  refine ⟨?_, hkey⟩
  rw [paths_replace hr]
  refine List.mem_append_left _ (List.mem_filter.mpr ⟨hmem, Replacement.keeps_iff.mpr fun hc => ?_⟩)
  have hx := (h.present x List.mem_cons_self p (hconsumed p hc)).2
  rw [hkey, Option.some.injEq] at hx
  exact (List.nodup_cons.mp h.keys).1 (hx ▸ List.mem_map_of_mem hy)

/-- What a compaction does, as far as it gets, fits. -/
theorem compactLoop_fits {parts : List (PartitionKey × List Path)} (hparts : Pending parts d)
    {n k : ℕ} (hfresh : Runs.Meets Disk.replace (Replacement.Fresh arrived) d
      ((compactLoop config env n parts d).take k)) :
    Runs.Meets Disk.replace (fun d r => r.Fits arrived d) d
      ((compactLoop config env n parts d).take k) := by
  induction parts generalizing n k d with
  | nil =>
    rw [compactLoop, List.take_nil]
    exact .nil _
  | cons x parts ih =>
    obtain ⟨key, files⟩ := x
    revert hfresh
    unfold compactLoop
    split
    · rw [List.take_nil]
      exact fun _ => .nil _
    · split
      · exact ih hparts.tail
      · next consumed hinputs =>
        intro hfresh
        cases k with
        | zero => exact .nil _
        | succ k =>
          rw [List.take_succ_cons] at hfresh ⊢
          have hsub := inputs_subperm hinputs
          have hfits : Replacement.Fits ⟨key, env.uuid n, consumed,
              sortRecords (consumed.flatMap d.rowsAt)⟩ arrived d :=
            { valid := hparts.valid _ List.mem_cons_self
              nodup := by
                obtain ⟨l, hl, hsublist⟩ := hsub
                exact hl.nodup_iff.mp ((hparts.nodup _ List.mem_cons_self).sublist hsublist)
              present := fun p hp =>
                (hparts.present _ List.mem_cons_self p (hsub.subset hp)).1
              settled := hfresh.1.2
              fresh := hfresh.1.1
              rows := perm_sortRecords _ }
          exact ⟨hfits, ih (hparts.replace hfits fun p hp => hsub.subset hp) hfresh.2⟩

theorem Consistent.pending (h : Consistent tenancy arrived d) : Pending d.byPartition d := by
  have hkeys : d.byPartition.map Prod.fst = (d.listing.filterMap LogLess.keyOfPath).dedup.insertionSort
      fun a b => partitionLe a b = true := by
    simp [Disk.byPartition, Function.comp_def]
  have hperm := List.perm_insertionSort (fun a b => partitionLe a b = true)
    (d.listing.filterMap LogLess.keyOfPath).dedup
  refine ⟨?_, ?_, ?_, ?_⟩
  · rw [hkeys]
    exact hperm.nodup_iff.mpr (List.nodup_dedup _)
  · intro x hx
    have hmem : x.1 ∈ d.byPartition.map Prod.fst := List.mem_map_of_mem hx
    rw [hkeys, hperm.mem_iff, List.mem_dedup, List.mem_filterMap] at hmem
    obtain ⟨p, hp, hkey⟩ := hmem
    obtain ⟨key, hvalid, hkey'⟩ := h.keyOfPath ((perm_listing d).mem_iff.mp hp)
    rw [hkey, Option.some.injEq] at hkey'
    rw [hkey']
    exact hvalid
  · intro x hx
    obtain ⟨key, -, rfl⟩ := List.mem_map.mp hx
    exact ((perm_listing d).nodup_iff.mpr h.nodup).filter _
  · intro x hx p hp
    obtain ⟨key, -, rfl⟩ := List.mem_map.mp hx
    obtain ⟨hp, hkey⟩ := List.mem_filter.mp hp
    exact ⟨(perm_listing d).mem_iff.mp hp, by simpa using hkey⟩

end

end LogLess.Store
