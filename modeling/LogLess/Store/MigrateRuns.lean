import LogLess.Store.Migrate

/-!
# Migrations that are cut short and repeated

What an old file becomes is its outputs, and what another file becomes is that file with hashes
for its counters. A run moves the old files and rewrites the others one at a time, so wherever it
stops, what the store is to become is the same, and a run that gets to its end has made it.
-/

namespace LogLess.Store

open Rewriting

/-! ## What becomes of the rows -/

section

variable (tenancy : Tenancy) (tables : TemplateTables)

/-- A row with the hash of its template's text for the counter, or none if it is unknown. -/
def rekeyed (r : LogRecord) : LogRecord :=
  { r with templateId := r.templateId.bind tables.counterToHash }

/-- A file with hashes for its counters, if it has counters. -/
def StoredFile.settled (f : StoredFile) : StoredFile :=
  if f.version ≠ some schemaVersion then .written (f.rows.map (rekeyed tables)) else f

/-- Where the rows of a file are. -/
def located (x : Path × StoredFile) : List (Option PartitionKey × LogRecord) :=
  x.2.rows.map fun r => (keyOfPath x.1, r)

/-- Where the rows of a file are to be: those of an old file by event hour and severity, with
their counters replaced; others where they are, with their counters replaced if they have any. -/
def destined (x : Path × StoredFile) : List (Option PartitionKey × LogRecord) :=
  if (oldHour x.1).isSome then
    x.2.rows.map fun r => (some (migratedKey tenancy r), rekeyed tables r)
  else located (x.1, x.2.settled tables)

end

theorem rekey_eq (tables : TemplateTables) (report : MigrateReport) (records : List LogRecord) :
    (rekey tables.counterToHash report records).1 = records.map (rekeyed tables) := by
  induction records generalizing report with
  | nil => rfl
  | cons r records ih =>
    rw [rekey, List.map_cons]
    cases hid : r.templateId with
    | none =>
      simp only [ih]
      rw [rekeyed, hid, Option.bind_none, ← hid]
    | some counter =>
      simp only [ih]
      rw [rekeyed, hid, Option.bind_some]

theorem bare_rekeyed (tables : TemplateTables) (r : LogRecord) :
    bare (rekeyed tables r) = bare r := rfl

theorem perm_flatMap_addToGroup (groups : List (PartitionKey × List LogRecord))
    (key : PartitionKey) (r : LogRecord) :
    ((addToGroup groups key r).flatMap fun x => x.2.map fun r => (x.1, r)).Perm
      ((groups.flatMap fun x => x.2.map fun r => (x.1, r)) ++ [(key, r)]) := by
  induction groups with
  | nil => exact List.Perm.refl _
  | cons g groups ih =>
    rw [addToGroup]
    split
    · next h =>
      simp only [List.flatMap_cons, List.map_append, List.map_cons, List.map_nil, h,
        List.append_assoc]
      exact List.Perm.append_left _ List.perm_append_comm
    · simp only [List.flatMap_cons, List.append_assoc]
      exact List.Perm.append_left _ ih

/-- Each row is in the group of its partition. -/
theorem perm_regroup (tenancy : Tenancy) (records : List LogRecord) :
    ((regroup tenancy records).flatMap fun x => x.2.map fun r => (x.1, r)).Perm
      (records.map fun r => (migratedKey tenancy r, r)) := by
  have hfold : ∀ (rs : List LogRecord) (groups : List (PartitionKey × List LogRecord)),
      ((rs.foldl (fun groups r => addToGroup groups (migratedKey tenancy r) r) groups).flatMap
        fun x => x.2.map fun r => (x.1, r)).Perm
      ((groups.flatMap fun x => x.2.map fun r => (x.1, r))
        ++ rs.map fun r => (migratedKey tenancy r, r)) := by
    intro rs
    induction rs with
    | nil => simp
    | cons r rs ih =>
      intro groups
      rw [List.foldl_cons, List.map_cons]
      refine (ih _).trans ?_
      have hone := perm_flatMap_addToGroup groups (migratedKey tenancy r) r
      simpa using hone.append_right (rs.map fun r => (migratedKey tenancy r, r))
  exact ((List.perm_insertionSort _ _).flatMap_right _).trans (by simpa using hfold records [])

theorem nodup_regroup (tenancy : Tenancy) (records : List LogRecord) :
    ((regroup tenancy records).map Prod.fst).Nodup := by
  have hfold : ∀ (rs : List LogRecord) (groups : List (PartitionKey × List LogRecord)),
      (groups.map Prod.fst).Nodup → ((rs.foldl (fun groups r =>
        addToGroup groups (migratedKey tenancy r) r) groups).map Prod.fst).Nodup := by
    intro rs
    induction rs with
    | nil => exact fun groups h => h
    | cons r rs ih => exact fun groups h => ih _ (nodup_keys_addToGroup h)
  have hperm := (List.perm_insertionSort (fun a b => PartitionKey.le a.1 b.1 = true)
    (records.foldl (fun groups r => addToGroup groups (migratedKey tenancy r) r) [])).map Prod.fst
  exact hperm.nodup_iff.mpr (hfold records [] List.nodup_nil)

/-- A group is for the partition of a row. -/
theorem exists_of_mem_regroup {tenancy : Tenancy} {records : List LogRecord}
    {g : PartitionKey × List LogRecord} (h : g ∈ regroup tenancy records) :
    ∃ r ∈ records, migratedKey tenancy r = g.1 := by
  have hfold : ∀ (rs : List LogRecord) (groups : List (PartitionKey × List LogRecord)),
      ∀ k ∈ (rs.foldl (fun groups r => addToGroup groups (migratedKey tenancy r) r) groups).map
        Prod.fst, k ∈ groups.map Prod.fst ∨ ∃ r ∈ rs, migratedKey tenancy r = k := by
    intro rs
    induction rs with
    | nil => exact fun groups k hk => .inl hk
    | cons r rs ih =>
      intro groups k hk
      rcases ih _ k hk with hk | ⟨r', hr', hkey⟩
      · rcases mem_keys_addToGroup.mp hk with rfl | hk
        · exact .inr ⟨r, List.mem_cons_self, rfl⟩
        · exact .inl hk
      · exact .inr ⟨r', List.mem_cons_of_mem r hr', hkey⟩
  rw [regroup, (List.perm_insertionSort _ _).mem_iff] at h
  exact (hfold records [] g.1 (List.mem_map_of_mem h)).resolve_left List.not_mem_nil

/-- The partition of a row is one that its path tells. -/
theorem valid_migratedKey (tenancy : Tenancy) {r : LogRecord} (h : r.timestampUnixNano < 2 ^ 64) :
    (migratedKey tenancy r).Valid where
  tenant := validIdent_tenant tenancy
  index := validIdent_defaultIndex tenancy tenancy.tenant
  node := tenancy.checked_tenants.1
  bucket := by
    obtain ⟨hne, hnames⟩ := tenancy.named_defaultBuckets
    obtain ⟨x, hx, hfor⟩ := LevelBuckets.exists_bucketFor hne r.severity
    show ((tenancy.defaultBuckets.bucketFor r.severity).map LevelBucket.name).getD [] ≠ []
    rw [hfor]
    exact hnames x hx
  epochHour := by
    show r.timestampUnixNano / nanosPerHour < 2 ^ 63
    unfold nanosPerHour
    omega

/-! ## What becomes of the files -/

section

variable (sha256 : Text → ByteArr 32) (tenancy : Tenancy) (tables : TemplateTables)

/-- What a file becomes. -/
def place (p : Path) (f : StoredFile) : List (Path × StoredFile) :=
  if (oldHour p).isSome then
    (regroup tenancy (f.rows.map (rekeyed tables))).map fun x =>
      (outputPath sha256 p x.1, .written (sortRecords x.2))
  else [(p, f.settled tables)]

variable {tenancy tables sha256} {p : Path} {f : StoredFile}

theorem oldHour_outputPath (old : Path) (key : PartitionKey) :
    oldHour (outputPath sha256 old key) = none := rfl

theorem version_settled (f : StoredFile) : (f.settled tables).version = some schemaVersion := by
  unfold StoredFile.settled
  split
  · rfl
  · next h => exact not_not.mp h

theorem settled_of_version (h : f.version = some schemaVersion) : f.settled tables = f := by
  rw [StoredFile.settled, if_neg (not_not.mpr h)]

theorem place_of_old (h : (oldHour p).isSome = true) :
    place sha256 tenancy tables p f = (regroup tenancy (f.rows.map (rekeyed tables))).map fun x =>
      (outputPath sha256 p x.1, .written (sortRecords x.2)) := by
  rw [place, if_pos h]

theorem place_of_new (h : oldHour p = none) :
    place sha256 tenancy tables p f = [(p, f.settled tables)] := by
  rw [place, h]
  rfl

theorem stays_of_new (h : oldHour p = none) : Stays (place sha256 tenancy tables) p := by
  intro f e he
  rw [place_of_new h, List.mem_singleton] at he
  rw [he]

theorem final_iff {e : Path × StoredFile} (h : oldHour e.1 = none) :
    Final (place sha256 tenancy tables) e ↔ e.2.version = some schemaVersion := by
  rw [Final, place_of_new h, List.singleton_inj]
  constructor
  · intro heq
    rw [← heq]
    exact version_settled e.2
  · intro hversion
    rw [settled_of_version hversion]

/-- What an old file becomes is elsewhere and stays there. -/
theorem place_old_spec (h : (oldHour p).isSome = true) :
    ∀ e ∈ place sha256 tenancy tables p f, e.1 ≠ p ∧ Final (place sha256 tenancy tables) e ∧
      Stays (place sha256 tenancy tables) e.1 := by
  intro e he
  rw [place_of_old h] at he
  obtain ⟨x, -, rfl⟩ := List.mem_map.mp he
  have hnew : oldHour (outputPath sha256 p x.1) = none := oldHour_outputPath p x.1
  refine ⟨?_, (final_iff hnew).mpr rfl, stays_of_new hnew⟩
  intro heq
  rw [← heq, hnew] at h
  cases h

end

/-! ## The steps of a run as changes -/

/-- What a step does to the files. -/
def MigrateStep.change? : MigrateStep → Option (Rewriting.Change Path StoredFile)
  | .write path rows => some (.put path (.written rows))
  | .remove path => some (.drop path)
  | .replaceSightings _ | .rebuild => none

namespace Archive

theorem applyAll_append (a : Archive) (steps more : List MigrateStep) :
    a.applyAll (steps ++ more) = (a.applyAll steps).applyAll more := Runs.run_append _ _ _ _

theorem files_applyAll (a : Archive) (steps : List MigrateStep) :
    (a.applyAll steps).files
      = Runs.run Rewriting.apply a.files (steps.filterMap MigrateStep.change?) := by
  induction steps generalizing a with
  | nil => rfl
  | cons s steps ih =>
    have htail := ih (a.apply s)
    cases s <;> exact htail

theorem perm_listing (a : Archive) : a.listing.Perm a.paths := List.perm_insertionSort _ _

theorem listing_eq {a b : Archive} (h : a.paths.Perm b.paths) : a.listing = b.listing :=
  Lists.insertionSort_eq_of_perm h

theorem fileAt_eq {a : Archive} {p : Path} {f : StoredFile} (h : Assoc.get a.files p = some f) :
    a.fileAt p = f := by
  rw [fileAt, h, Option.getD_some]

theorem get_of_mem_paths {a : Archive} {p : Path} (h : p ∈ a.paths) :
    Assoc.get a.files p = some (a.fileAt p) := by
  obtain ⟨f, hf⟩ := Option.isSome_iff_exists.mp (Assoc.isSome_get.mpr h)
  rw [hf, fileAt_eq hf]

end Archive

section

variable {sha256 : Text → ByteArr 32} {tenancy : Tenancy} {tables : TemplateTables}

theorem changes_migrateFile {a : Archive} {old : Path} {hour : ℕ} (h : oldHour old = some hour)
    (report : MigrateReport) :
    (migrateFile sha256 tenancy tables a old hour report).1.filterMap MigrateStep.change?
      = Rewriting.move (place sha256 tenancy tables) old (a.fileAt old) := by
  have hold : (oldHour old).isSome = true := by rw [h]; rfl
  rw [Rewriting.move, place_of_old hold, migrateFile]
  simp only [rekey_eq]
  rw [List.filterMap_append, List.filterMap_map, List.map_map]
  congr 1
  show List.filterMap (some ∘ _) _ = List.map _ _
  rw [List.filterMap_eq_map]
  rfl

/-- **The loop over the old files** moves each. -/
theorem migrateFiles_spec {a : Archive} {files : List (Path × ℕ)}
    (hnodup : (files.map Prod.fst).Nodup)
    (hold : ∀ x ∈ files, oldHour x.1 = some x.2 ∧ x.1 ∈ a.paths)
    (hsingle : Single (place sha256 tenancy tables) a.files) (report : MigrateReport) :
    Runs.Meets Rewriting.apply (Rewriting.Sound (place sha256 tenancy tables)) a.files
      ((migrateFiles sha256 tenancy tables files a report).1.filterMap MigrateStep.change?) ∧
    ∀ q, (oldHour q).isSome = true →
      Assoc.get (a.applyAll (migrateFiles sha256 tenancy tables files a report).1).files q
        = if q ∈ files.map Prod.fst then none else Assoc.get a.files q := by
  induction files generalizing a report with
  | nil => exact ⟨.nil _, fun q _ => rfl⟩
  | cons x files ih =>
    obtain ⟨old, hour⟩ := x
    rw [List.map_cons, List.nodup_cons] at hnodup
    obtain ⟨hhour, hmem⟩ := hold (old, hour) List.mem_cons_self
    have hisOld : (oldHour old).isSome = true := by rw [hhour]; rfl
    have hget := Archive.get_of_mem_paths hmem
    rw [migrateFiles]
    set one := migrateFile sha256 tenancy tables a old hour report with hone
    have hchanges : one.1.filterMap MigrateStep.change?
        = Rewriting.move (place sha256 tenancy tables) old (a.fileAt old) :=
      changes_migrateFile hhour report
    have hmeets := meets_move hsingle hget (place_old_spec hisOld)
    have hfiles : (a.applyAll one.1).files
        = Runs.run Rewriting.apply a.files
          (Rewriting.move (place sha256 tenancy tables) old (a.fileAt old)) := by
      rw [Archive.files_applyAll, hchanges]
    -- other old files are where they were
    have hothers : ∀ q, (oldHour q).isSome = true → Assoc.get (a.applyAll one.1).files q
        = if q = old then none else Assoc.get a.files q := by
      intro q hq
      rw [hfiles]
      refine get_run_move a.files fun hmem => ?_
      obtain ⟨e, he, rfl⟩ := List.mem_map.mp hmem
      rw [place_of_old hisOld] at he
      obtain ⟨y, -, rfl⟩ := List.mem_map.mp he
      rw [oldHour_outputPath] at hq
      cases hq
    have hsingle' : Single (place sha256 tenancy tables) (a.applyAll one.1).files := by
      rw [hfiles]
      exact hsingle.congr fun e => goal_run hsingle hmeets e
    have hold' : ∀ y ∈ files, oldHour y.1 = some y.2 ∧ y.1 ∈ (a.applyAll one.1).paths := by
      intro y hy
      obtain ⟨hyhour, hymem⟩ := hold y (List.mem_cons_of_mem _ hy)
      refine ⟨hyhour, Assoc.isSome_get.mp ?_⟩
      have hne : y.1 ≠ old := fun heq => hnodup.1 (List.mem_map.mpr ⟨y, hy, heq⟩)
      rw [hothers y.1 (by rw [hyhour]; rfl), if_neg hne, Assoc.isSome_get]
      exact hymem
    obtain ⟨hrest, hgone⟩ := ih hnodup.2 hold' hsingle' one.2
    constructor
    · rw [List.filterMap_append, hchanges]
      refine hmeets.append ?_
      rw [← hfiles]
      exact hrest
    · intro q hq
      rw [Archive.applyAll_append, hgone q hq, hothers q hq, List.map_cons]
      by_cases hqold : q = old
      · rw [if_pos hqold, if_pos (List.mem_cons.mpr (.inl hqold)), ite_self]
      · rw [if_neg hqold]
        simp only [List.mem_cons, hqold, false_or]

theorem changes_rekeyFile {a : Archive} {p : Path} (report : MigrateReport) :
    (rekeyFile tables a p report).1.filterMap MigrateStep.change?
      = if (a.fileAt p).version ≠ some schemaVersion then [.put p ((a.fileAt p).settled tables)]
        else [] := by
  rw [rekeyFile, StoredFile.settled]
  split
  · simp only [rekey_eq]
    rfl
  · rfl

theorem rows_rekeyFile {a : Archive} {p : Path} (report : MigrateReport) :
    (rekeyFile tables a p report).2.1 = ((a.fileAt p).settled tables).rows := by
  rw [rekeyFile, StoredFile.settled]
  split
  · simp only [rekey_eq]
    rfl
  · rfl

/-- One file of the second loop is settled, and the others are as they were. -/
theorem get_rekeyFile {a : Archive} {p : Path} (hp : p ∈ a.paths) (report : MigrateReport)
    (q : Path) :
    Assoc.get (a.applyAll (rekeyFile tables a p report).1).files q
      = if q = p then some ((a.fileAt p).settled tables) else Assoc.get a.files q := by
  rw [Archive.files_applyAll, changes_rekeyFile]
  split
  · exact Assoc.get_insert a.files p q _
  · next h =>
    rw [settled_of_version (not_not.mp h)]
    show Assoc.get a.files q = _
    split
    · next hq => rw [hq, Archive.get_of_mem_paths hp]
    · rfl

theorem meets_rekeyFile {a : Archive} {p : Path} (hp : p ∈ a.paths) (hnew : oldHour p = none)
    (report : MigrateReport) :
    Runs.Meets Rewriting.apply (Rewriting.Sound (place sha256 tenancy tables)) a.files
      ((rekeyFile tables a p report).1.filterMap MigrateStep.change?) := by
  rw [changes_rekeyFile]
  split
  · refine ⟨⟨⟨p, a.fileAt p, Archive.get_of_mem_paths hp, ?_⟩, ?_, stays_of_new hnew⟩, trivial⟩
    · rw [place_of_new hnew]
      exact List.mem_singleton.mpr rfl
    · exact (final_iff hnew).mpr (version_settled _)
  · exact .nil _

/-- **The loop over all files** settles each, and reads what is there after it. -/
theorem rekeyFiles_spec {a : Archive} {paths : List Path} (hnodup : paths.Nodup)
    (hthere : ∀ p ∈ paths, p ∈ a.paths ∧ oldHour p = none) (report : MigrateReport) :
    Runs.Meets Rewriting.apply (Rewriting.Sound (place sha256 tenancy tables)) a.files
      ((rekeyFiles tables paths a report).1.filterMap MigrateStep.change?) ∧
    (∀ q, Assoc.get (a.applyAll (rekeyFiles tables paths a report).1).files q
      = if q ∈ paths then some ((a.fileAt q).settled tables) else Assoc.get a.files q) ∧
    (rekeyFiles tables paths a report).2.1 = paths.filterMap fun p =>
      (keyOfPath p).map fun key => (key, ((a.fileAt p).settled tables).rows) := by
  induction paths generalizing a report with
  | nil => exact ⟨.nil _, fun q => rfl, rfl⟩
  | cons p paths ih =>
    rw [List.nodup_cons] at hnodup
    obtain ⟨hp, hnew⟩ := hthere p List.mem_cons_self
    have hmeets := @meets_rekeyFile sha256 tenancy tables a p hp hnew report
    have hget := @get_rekeyFile tables a p hp report
    have hrows := @rows_rekeyFile tables a p report
    rw [rekeyFiles]
    set one := rekeyFile tables a p report
    have hthere' : ∀ q ∈ paths, q ∈ (a.applyAll one.1).paths ∧ oldHour q = none := by
      intro q hq
      obtain ⟨hqmem, hqnew⟩ := hthere q (List.mem_cons_of_mem p hq)
      refine ⟨Assoc.isSome_get.mp ?_, hqnew⟩
      rw [hget q]
      split
      · rfl
      · exact Assoc.isSome_get.mpr hqmem
    have hsame : ∀ q ∈ paths, (a.applyAll one.1).fileAt q = a.fileAt q := by
      intro q hq
      have hne : q ≠ p := fun heq => hnodup.1 (heq ▸ hq)
      rw [Archive.fileAt, hget q, if_neg hne]
      rfl
    obtain ⟨hrest, hgets, hseen⟩ := ih hnodup.2 hthere' one.2.2
    refine ⟨?_, ?_, ?_⟩
    · rw [List.filterMap_append]
      refine hmeets.append ?_
      rw [← Archive.files_applyAll]
      exact hrest
    · intro q
      rw [Archive.applyAll_append, hgets q, hget q]
      by_cases hq : q ∈ paths
      · rw [if_pos hq, if_pos (List.mem_cons_of_mem p hq), hsame q hq]
      · rw [if_neg hq]
        by_cases hqp : q = p
        · rw [if_pos hqp, if_pos (List.mem_cons.mpr (.inl hqp)), hqp]
        · rw [if_neg hqp, if_neg (by simp [hq, hqp])]
    · simp only [hrows, hseen]
      rw [List.filterMap_cons]
      have hcongr : (paths.filterMap fun q => (keyOfPath q).map fun key =>
          (key, (((a.applyAll one.1).fileAt q).settled tables).rows))
          = paths.filterMap fun q => (keyOfPath q).map fun key =>
            (key, ((a.fileAt q).settled tables).rows) := by
        refine List.filterMap_congr fun q hq => ?_
        rw [hsame q hq]
      rw [hcongr]
      cases keyOfPath p <;> rfl

end

/-! ## The catalog after a run -/

namespace Catalog

theorem get_replaceSightings (c : Catalog) (rows : List (PartitionKey × List LogRecord))
    (key : SightingKey) :
    Assoc.get (c.replaceSightings (sightingsOf rows)).templateServices key
      = Tally.ofList (Tally.timesOf key (sighted rows)) := by
  rw [replaceSightings, get_upsertSightings, Assoc.get_nil, Tally.join_none_left]

/-- The table of the sightings is made anew, whatever it was. -/
theorem replaceSightings_eq (c : Catalog) (ss : List TemplateSighting) :
    c.replaceSightings ss = { c with
      templateServices := (ss.map TemplateSighting.entry).foldl Tally.record [] } := by
  have hfiles : (c.replaceSightings ss).files = c.files := files_upsertSightings _ ss
  have hmerged : (c.replaceSightings ss).mergedSegments = c.mergedSegments :=
    mergedSegments_upsertSightings _ ss
  have hservices := templateServices_upsertSightings { c with templateServices := [] } ss
  rw [← hfiles, ← hmerged, ← hservices]
  rfl

theorem upsertFiles_eq (c : Catalog) (fs : List FileEntry) :
    fs.foldl upsertFile c = { c with files := (fs.foldl upsertFile c).files } := by
  have hmerged : (fs.foldl upsertFile c).mergedSegments = c.mergedSegments :=
    mergedSegments_upsertFiles _ fs
  have hservices : (fs.foldl upsertFile c).templateServices = c.templateServices :=
    templateServices_upsertFiles _ fs
  rw [← hmerged, ← hservices]

end Catalog

namespace Archive

/-- What a run ends with: the sightings of the leaves, and a rebuild. -/
def finish (a : Archive) : Archive :=
  (a.apply (.replaceSightings (sightingsOf a.leaves))).apply .rebuild

@[simp] theorem files_finish (a : Archive) : a.finish.files = a.files := rfl

theorem leaves_finish (a : Archive) : a.finish.leaves = a.leaves := rfl

theorem templateServices_finish (a : Archive) :
    a.finish.catalog.templateServices
      = (a.catalog.replaceSightings (sightingsOf a.leaves)).templateServices :=
  Catalog.templateServices_upsertFiles _ _

theorem replaceSightings_finish (a : Archive) :
    a.finish.apply (.replaceSightings (sightingsOf a.leaves)) = a.finish := by
  have hservices : a.finish.catalog.templateServices
      = ((sightingsOf a.leaves).map TemplateSighting.entry).foldl Tally.record [] := by
    rw [templateServices_finish, Catalog.replaceSightings_eq]
  have hcatalog : a.finish.catalog.replaceSightings (sightingsOf a.leaves) = a.finish.catalog := by
    rw [Catalog.replaceSightings_eq, ← hservices]
  exact congrArg (Archive.mk a.finish.files) hcatalog

theorem rebuild_finish (a : Archive) : a.finish.apply .rebuild = a.finish := by
  have hsame : ∀ (c : Catalog) (fs : List FileEntry),
      fs.foldl Catalog.upsertFile { fs.foldl Catalog.upsertFile { c with files := [] } with
        files := [] } = fs.foldl Catalog.upsertFile { c with files := [] } := by
    intro c fs
    have hclear : ({ fs.foldl Catalog.upsertFile { c with files := [] } with files := [] } :
        Catalog) = { c with files := [] } := by
      rw [Catalog.upsertFiles_eq]
    rw [hclear]
  show ({ a with catalog := _ } : Archive) = { a with catalog := _ }
  exact congrArg (Archive.mk a.files) (hsame _ _)

end Archive

section

variable {sha256 : Text → ByteArr 32} {tenancy : Tenancy} {tables : TemplateTables} {a : Archive}

/-! ## A whole run -/

/-- Every file is of the current layout and version. -/
def Archive.Current (a : Archive) : Prop :=
  ∀ x ∈ a.files, oldHour x.1 = none ∧ x.2.version = some schemaVersion

theorem Archive.Current.fileAt (h : a.Current) {p : Path} (hp : p ∈ a.paths) :
    oldHour p = none ∧ (a.fileAt p).version = some schemaVersion :=
  h (p, a.fileAt p) (Assoc.mem_of_get (Archive.get_of_mem_paths hp))

/-- **What a run does**: sound changes to the files until all of them are current, and then the
catalog. -/
theorem migrate_spec (hnodup : a.paths.Nodup)
    (hsingle : Single (place sha256 tenancy tables) a.files) :
    ∃ steps, (migrate sha256 tenancy tables a).1
        = steps ++ [.replaceSightings (sightingsOf (a.applyAll steps).leaves), .rebuild] ∧
      Runs.Meets Rewriting.apply (Rewriting.Sound (place sha256 tenancy tables)) a.files
        (steps.filterMap MigrateStep.change?) ∧
      (a.applyAll steps).Current := by
  rw [migrate]
  -- the old files
  have hlisting : a.listing.Nodup := a.perm_listing.nodup_iff.mpr hnodup
  have hkeys : (a.oldFiles.map Prod.fst).Nodup := by
    have hsub := @Lists.sublist_filterMap _ _ _ (fun p => (oldHour p).map fun hour => (p, hour))
      id Prod.fst (fun p x hx => by
        obtain ⟨hour, -, rfl⟩ := Option.map_eq_some_iff.mp hx
        rfl) a.listing
    rw [List.map_id] at hsub
    exact hlisting.sublist hsub
  have hold : ∀ x ∈ a.oldFiles, oldHour x.1 = some x.2 ∧ x.1 ∈ a.paths := by
    intro x hx
    obtain ⟨p, hp, hx⟩ := List.mem_filterMap.mp hx
    obtain ⟨hour, hhour, rfl⟩ := Option.map_eq_some_iff.mp hx
    exact ⟨hhour, a.perm_listing.mem_iff.mp hp⟩
  obtain ⟨hmoves, hgone⟩ := migrateFiles_spec hkeys hold hsingle .zero
  set moves := migrateFiles sha256 tenancy tables a.oldFiles a .zero
  set b := a.applyAll moves.1 with hb
  have hnew : ∀ p ∈ b.paths, oldHour p = none := by
    intro p hp
    cases hhour : oldHour p with
    | none => rfl
    | some hour =>
      have hthere := Assoc.isSome_get.mpr hp
      rw [hgone p (by rw [hhour]; rfl)] at hthere
      split at hthere
      · cases hthere
      · next hnot =>
        rw [Assoc.isSome_get] at hthere
        refine absurd (List.mem_map.mpr ⟨(p, hour), ?_, rfl⟩) hnot
        refine List.mem_filterMap.mpr ⟨p, a.perm_listing.mem_iff.mpr hthere, ?_⟩
        rw [hhour]
        rfl
  -- the other files
  have hbnodup : b.paths.Nodup := by
    show (b.files.map Prod.fst).Nodup
    rw [hb, Archive.files_applyAll]
    exact nodup_run hnodup _
  obtain ⟨hrekeys, hgets, hseen⟩ := @rekeyFiles_spec sha256 tenancy tables b b.listing
    (b.perm_listing.nodup_iff.mpr hbnodup)
    (fun p hp => ⟨b.perm_listing.mem_iff.mp hp, hnew p (b.perm_listing.mem_iff.mp hp)⟩) moves.2
  set rekeys := rekeyFiles tables b.listing b moves.2
  set d := b.applyAll rekeys.1 with hd
  have hdnodup : d.paths.Nodup := by
    show (d.files.map Prod.fst).Nodup
    rw [hd, Archive.files_applyAll]
    exact nodup_run hbnodup _
  have hpaths : ∀ p, p ∈ d.paths ↔ p ∈ b.paths := by
    intro p
    rw [Archive.paths, ← Assoc.isSome_get, hgets p]
    split
    · next hp => exact iff_of_true rfl (b.perm_listing.mem_iff.mp hp)
    · exact Assoc.isSome_get
  have hdfile : ∀ p ∈ b.listing, d.fileAt p = (b.fileAt p).settled tables := by
    intro p hp
    exact Archive.fileAt_eq (by rw [hgets p, if_pos hp])
  have hleaves : rekeys.2.1 = d.leaves := by
    have hlist : d.listing = b.listing :=
      Archive.listing_eq ((List.perm_ext_iff_of_nodup hdnodup hbnodup).mpr hpaths)
    rw [hseen, Archive.leaves, hlist]
    refine List.filterMap_congr fun p hp => ?_
    rw [hdfile p hp]
  refine ⟨moves.1 ++ rekeys.1, ?_, ?_, ?_⟩
  · simp only [Archive.applyAll_append]
    rw [← hleaves]
  · rw [List.filterMap_append]
    refine hmoves.append ?_
    rw [← Archive.files_applyAll]
    exact hrekeys
  · rw [Archive.applyAll_append]
    rintro ⟨p, f⟩ hx
    have hp : p ∈ b.paths := (hpaths p).mp (List.mem_map.mpr ⟨(p, f), hx, rfl⟩)
    refine ⟨hnew p hp, ?_⟩
    have hf := (Assoc.get_eq_some_iff hdnodup).mpr hx
    rw [hgets p, if_pos (b.perm_listing.mem_iff.mpr hp), Option.some.injEq] at hf
    rw [← hf]
    exact version_settled _

end

end LogLess.Store
