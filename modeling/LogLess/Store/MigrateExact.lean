import LogLess.Store.MigrateRuns

/-!
# A migration conserves the rows

Wherever runs stop, a run that gets to its end leaves each row once, in the partition it is to be
in and with the template id it is to have, and the sightings that the rows say. A further run finds
nothing to do. The digests in the names of outputs are taken to be different from each other, and
the names from those of other files.
-/

namespace LogLess.Store

open Rewriting

namespace Archive

/-- Files of the old layout and of the current one, as a directory holds them. -/
structure Mixed (a : Archive) : Prop where
  nodup : a.paths.Nodup
  layout : ∀ p ∈ a.paths, (oldHour p).isSome = true ∨ (keyOfPath p).isSome = true
  /-- A separator is not in the name of a file. -/
  names : ∀ p ∈ a.paths, ∀ name ∈ p, '/' ∉ name
  /-- Times are of 64 bits. -/
  times : ∀ x ∈ a.files, ∀ r ∈ x.2.rows, r.timestampUnixNano < 2 ^ 64

/-- The texts that name the outputs of the old files. -/
def outputTexts (a : Archive) : List Text :=
  (a.files.filter fun x => (oldHour x.1).isSome).flatMap fun x =>
    x.2.rows.map fun r => outputText x.1 (r.timestampUnixNano / nanosPerHour)

/-- The digests of names do not collide: not with each other in the bytes that a name keeps, and
no file has the path of an output. -/
structure NoCollision (sha256 : Text → ByteArr 32) (tenancy : Tenancy) (a : Archive) : Prop where
  digests : ∀ s ∈ a.outputTexts, ∀ t ∈ a.outputTexts,
    (sha256 s).1.take 6 = (sha256 t).1.take 6 → s = t
  free : ∀ x ∈ a.files, (oldHour x.1).isSome = true → ∀ r ∈ x.2.rows,
    outputPath sha256 x.1 (migratedKey tenancy r) ∉ a.paths

end Archive

/-! ## Names of outputs -/

theorem eq_of_append_sep {sep : Char} {s t u v : Text} (hu : sep ∉ u) (hv : sep ∉ v)
    (h : s ++ sep :: u = t ++ sep :: v) : s = t := by
  have hreverse : u.reverse ++ sep :: s.reverse = v.reverse ++ sep :: t.reverse := by
    have := congrArg List.reverse h
    simpa using this
  have hsplit := congrArg (Text.splitOnce sep) hreverse
  rw [Text.splitOnce_append (by simpa using hu), Text.splitOnce_append (by simpa using hv),
    Option.some.injEq, Prod.mk.injEq] at hsplit
  exact List.reverse_injective hsplit.2

theorem eq_of_oldHour {p : Path} (h : (oldHour p).isSome = true) :
    ∃ hour level file, p = [hour, level, file] := by
  unfold oldHour at h
  split at h
  · next hour level file => exact ⟨hour, level, file, rfl⟩
  · cases h

/-- The path of an old file can be read off the text that names an output. -/
theorem outputText_inj {p q : Path} (hp : (oldHour p).isSome = true)
    (hq : (oldHour q).isSome = true) (hpnames : ∀ name ∈ p, '/' ∉ name)
    (hqnames : ∀ name ∈ q, '/' ∉ name) {m n : ℕ} (h : outputText p m = outputText q n) : p = q := by
  have hdigits : ∀ n, Char.ofNat 0x1F ∉ Decimal.ofNat n := by
    intro n hmem
    have := Decimal.isDigit_of_mem_ofNat hmem
    revert this
    decide
  have hjoined := eq_of_append_sep (hdigits m) (hdigits n) h
  obtain ⟨a, b, c, rfl⟩ := eq_of_oldHour hp
  obtain ⟨a', b', c', rfl⟩ := eq_of_oldHour hq
  have hjoin : ∀ x y z : Text, List.intercalate ['/'] [x, y, z] = x ++ '/' :: (y ++ '/' :: z) := by
    intro x y z
    simp [List.intercalate]
  rw [hjoin, hjoin] at hjoined
  have hsplit := congrArg (Text.splitAt '/') hjoined
  simp only [List.forall_mem_cons] at hpnames hqnames
  obtain ⟨ha, hb, hc, -⟩ := hpnames
  obtain ⟨ha', hb', hc', -⟩ := hqnames
  rw [Text.splitAt_append ha, Text.splitAt_append hb, Text.splitAt_of_notMem hc,
    Text.splitAt_append ha', Text.splitAt_append hb', Text.splitAt_of_notMem hc'] at hsplit
  exact hsplit

section

variable {sha256 : Text → ByteArr 32} {tenancy : Tenancy} {tables : TemplateTables}
  {a b : Archive}

theorem outputPath_inj {p q : Path} {k l : PartitionKey}
    (h : outputPath sha256 p k = outputPath sha256 q l) :
    k = l ∧ (sha256 (outputText p k.epochHour)).1.take 6
      = (sha256 (outputText q l.epochHour)).1.take 6 := by
  obtain ⟨hkey, -, hbytes⟩ := filePath_inj.mp h
  refine ⟨hkey, ?_⟩
  have htake : ∀ d : ByteArr 32, (digestUuid d).bytes.take 6 = d.1.take 6 := by
    intro d
    show (d.1.take 16).take 6 = _
    rw [List.take_take]
    rfl
  rwa [htake, htake] at hbytes

/-- An output of an old file is for the partition of one of its rows. -/
theorem exists_of_mem_place {p : Path} {f : StoredFile} {e : Path × StoredFile}
    (hold : (oldHour p).isSome = true) (he : e ∈ place sha256 tenancy tables p f) :
    ∃ r ∈ f.rows, e.1 = outputPath sha256 p (migratedKey tenancy r) := by
  rw [place_of_old hold] at he
  obtain ⟨g, hg, rfl⟩ := List.mem_map.mp he
  obtain ⟨r', hr', hkey⟩ := exists_of_mem_regroup hg
  obtain ⟨r, hr, rfl⟩ := List.mem_map.mp hr'
  exact ⟨r, hr, by rw [← hkey]; rfl⟩

theorem mem_outputTexts {x : Path × StoredFile} (hx : x ∈ a.files)
    (hold : (oldHour x.1).isSome = true) {r : LogRecord} (hr : r ∈ x.2.rows) :
    outputText x.1 (migratedKey tenancy r).epochHour ∈ a.outputTexts := by
  refine List.mem_flatMap.mpr ⟨x, List.mem_filter.mpr ⟨hx, hold⟩, ?_⟩
  exact List.mem_map_of_mem hr

/-- What different files become has different paths. -/
theorem Archive.NoCollision.apart (ha : a.Mixed) (h : a.NoCollision sha256 tenancy) :
    Rewriting.Apart (place sha256 tenancy tables) a.files := by
  rw [Rewriting.Apart, List.map_flatMap, List.nodup_flatMap]
  constructor
  · rintro ⟨p, f⟩ -
    show ((place sha256 tenancy tables p f).map Prod.fst).Nodup
    cases hold : oldHour p with
    | none =>
      rw [place_of_new hold]
      exact List.nodup_singleton p
    | some hour =>
      have hgroups := nodup_regroup tenancy (f.rows.map (rekeyed tables))
      rw [place_of_old (by rw [hold]; rfl), List.map_map]
      have hcomp : Prod.fst ∘ (fun x : PartitionKey × List LogRecord =>
          (outputPath sha256 p x.1, StoredFile.written (sortRecords x.2)))
          = outputPath sha256 p ∘ Prod.fst := rfl
      rw [hcomp, ← List.map_map]
      exact hgroups.map fun k l hkl => (outputPath_inj hkl).1
  · have hne : a.files.Pairwise fun x y => x.1 ≠ y.1 := List.pairwise_map.mp ha.nodup
    refine hne.imp_of_mem ?_
    rintro ⟨p, f⟩ ⟨q, g⟩ hx hy hpq
    rw [Function.onFun, List.disjoint_left]
    intro s hs hs'
    obtain ⟨e, he, rfl⟩ := List.mem_map.mp hs
    obtain ⟨e', he', hsame⟩ := List.mem_map.mp hs'
    have hpmem : p ∈ a.paths := List.mem_map_of_mem hx
    have hqmem : q ∈ a.paths := List.mem_map_of_mem hy
    cases hp : oldHour p with
    | none =>
      have hep : e.1 = p := stays_of_new hp f e he
      cases hq : oldHour q with
      | none => exact hpq (hep.symm.trans (hsame.symm.trans (stays_of_new hq g e' he')))
      | some hour =>
        have hqold : (oldHour q).isSome = true := by rw [hq]; rfl
        obtain ⟨r, hr, hpath⟩ := exists_of_mem_place hqold he'
        refine h.free (q, g) hy hqold r hr ?_
        rw [← hpath, hsame, hep]
        exact hpmem
    | some hour =>
      have hpold : (oldHour p).isSome = true := by rw [hp]; rfl
      obtain ⟨r, hr, hpath⟩ := exists_of_mem_place hpold he
      cases hq : oldHour q with
      | none =>
        refine h.free (p, f) hx hpold r hr ?_
        rw [← hpath, ← hsame, stays_of_new hq g e' he']
        exact hqmem
      | some hour' =>
        have hqold : (oldHour q).isSome = true := by rw [hq]; rfl
        obtain ⟨r', hr', hpath'⟩ := exists_of_mem_place hqold he'
        rw [hpath, hpath'] at hsame
        obtain ⟨-, hbytes⟩ := outputPath_inj hsame
        have htext := h.digests _ (mem_outputTexts hy hqold hr') _ (mem_outputTexts hx hpold hr)
          hbytes
        exact hpq (outputText_inj hqold hpold (ha.names q hqmem) (ha.names p hpmem) htext).symm

/-! ## Runs -/

/-- What `b` is to become is what `a` is to become. -/
structure Archive.Underway (sha256 : Text → ByteArr 32) (tenancy : Tenancy)
    (tables : TemplateTables) (a b : Archive) : Prop where
  nodup : b.paths.Nodup
  goal : ∀ e, Goal (place sha256 tenancy tables) b.files e
    ↔ Goal (place sha256 tenancy tables) a.files e

theorem Archive.Underway.applyAll (h : a.Underway sha256 tenancy tables b)
    (hsingle : Single (place sha256 tenancy tables) a.files) {steps : List MigrateStep}
    (hmeets : Runs.Meets Rewriting.apply (Rewriting.Sound (place sha256 tenancy tables)) b.files
      (steps.filterMap MigrateStep.change?)) :
    a.Underway sha256 tenancy tables (b.applyAll steps) where
  nodup := by
    show ((b.applyAll steps).files.map Prod.fst).Nodup
    rw [Archive.files_applyAll]
    exact nodup_run h.nodup _
  goal := by
    intro e
    rw [Archive.files_applyAll, goal_run (hsingle.congr h.goal) hmeets]
    exact h.goal e

/-- Wherever a run stops, what the archive is to become is the same. -/
theorem Archive.Underway.migrated (h : a.Underway sha256 tenancy tables b)
    (hsingle : Single (place sha256 tenancy tables) a.files) (stop : Option ℕ) :
    a.Underway sha256 tenancy tables (b.migrated sha256 tenancy tables stop) := by
  obtain ⟨steps, hsteps, hmeets, -⟩ := migrate_spec h.nodup (hsingle.congr h.goal)
  have hall : Runs.Meets Rewriting.apply (Rewriting.Sound (place sha256 tenancy tables)) b.files
      ((migrate sha256 tenancy tables b).1.filterMap MigrateStep.change?) := by
    rw [hsteps, List.filterMap_append]
    exact hmeets.append (.nil _)
  refine h.applyAll hsingle ?_
  cases stop with
  | none => exact hall
  | some n =>
    rw [← List.take_append_drop n (migrate sha256 tenancy tables b).1,
      List.filterMap_append] at hall
    exact hall.append_left

/-- A run that gets to its end leaves current files only. -/
theorem Archive.Underway.finished (h : a.Underway sha256 tenancy tables b)
    (hsingle : Single (place sha256 tenancy tables) a.files) :
    ∃ d, b.migrated sha256 tenancy tables none = Archive.finish d ∧ d.Current ∧
      a.Underway sha256 tenancy tables d := by
  obtain ⟨steps, hsteps, hmeets, hcurrent⟩ := migrate_spec h.nodup (hsingle.congr h.goal)
  refine ⟨b.applyAll steps, ?_, hcurrent, h.applyAll hsingle hmeets⟩
  show b.applyAll (migrate sha256 tenancy tables b).1 = _
  rw [hsteps, Archive.applyAll_append]
  rfl

theorem rekeyFiles_current (h : a.Current) {paths : List Path} (hpaths : ∀ p ∈ paths, p ∈ a.paths)
    (report : MigrateReport) :
    rekeyFiles tables paths a report
      = ([], paths.filterMap fun p => (keyOfPath p).map fun key => (key, (a.fileAt p).rows),
        report) := by
  induction paths generalizing report with
  | nil => rfl
  | cons p paths ih =>
    have hone : rekeyFile tables a p report = ([], (a.fileAt p).rows, report) := by
      rw [rekeyFile, if_neg (not_not.mpr (h.fileAt (hpaths p List.mem_cons_self)).2)]
    have hrest := ih (fun q hq => hpaths q (List.mem_cons_of_mem p hq)) report
    rw [rekeyFiles, hone]
    simp only
    rw [show a.applyAll [] = a from rfl, hrest, List.filterMap_cons]
    cases keyOfPath p <;> rfl

/-- With current files a run only counts and lists them again. -/
theorem migrate_current (h : a.Current) :
    migrate sha256 tenancy tables a
      = ([.replaceSightings (sightingsOf a.leaves), .rebuild],
        { MigrateReport.zero with catalogFiles := (a.listing.filterMap keyOfPath).length }) := by
  have hold : a.oldFiles = [] := by
    rw [Archive.oldFiles, List.filterMap_eq_nil_iff]
    intro p hp
    rw [(h.fileAt (a.perm_listing.mem_iff.mp hp)).1]
    rfl
  rw [migrate, hold]
  simp only [migrateFiles]
  rw [show a.applyAll [] = a from rfl,
    rekeyFiles_current h (fun p hp => a.perm_listing.mem_iff.mp hp) .zero]
  rfl

theorem Archive.applyAll_eq_self {steps : List MigrateStep} (h : ∀ s ∈ steps, a.apply s = a) :
    a.applyAll steps = a := by
  induction steps with
  | nil => rfl
  | cons s steps ih =>
    show (a.apply s).applyAll steps = a
    rw [h s List.mem_cons_self]
    exact ih fun s' hs' => h s' (List.mem_cons_of_mem s hs')

/-- A further run changes nothing, wherever it stops. -/
theorem Archive.Current.migrated_finish (h : a.Current) (stop : Option ℕ) :
    a.finish.migrated sha256 tenancy tables stop = a.finish := by
  have hcurrent : a.finish.Current := h
  have hsteps := @migrate_current sha256 tenancy tables a.finish hcurrent
  have hall : ∀ s ∈ (migrate sha256 tenancy tables a.finish).1, a.finish.apply s = a.finish := by
    rw [hsteps, Archive.leaves_finish]
    simp only [List.forall_mem_cons]
    exact ⟨a.replaceSightings_finish, a.rebuild_finish, by simp⟩
  refine Archive.applyAll_eq_self fun s hs => hall s ?_
  cases stop with
  | none => exact hs
  | some n => exact List.mem_of_mem_take hs

/-! ## The rows -/

/-- The rows of what a file becomes are where they are to be. -/
theorem perm_located_place {x : Path × StoredFile}
    (htimes : ∀ r ∈ x.2.rows, r.timestampUnixNano < 2 ^ 64) :
    ((place sha256 tenancy tables x.1 x.2).flatMap located).Perm (destined tenancy tables x) := by
  unfold destined
  cases hold : oldHour x.1 with
  | none =>
    rw [place_of_new hold, List.flatMap_singleton]
    exact List.Perm.refl _
  | some hour =>
    rw [place_of_old (by rw [hold]; rfl), List.flatMap_map]
    set records := x.2.rows.map (rekeyed tables) with hrecords
    have hgroup : ∀ g ∈ regroup tenancy records,
        (located (outputPath sha256 x.1 g.1, .written (sortRecords g.2))).Perm
          ((g.2.map fun r => (g.1, r)).map (Prod.map some id)) := by
      intro g hg
      obtain ⟨r', hr', hkey⟩ := exists_of_mem_regroup hg
      obtain ⟨r, hr, rfl⟩ := List.mem_map.mp hr'
      have hvalid : g.1.Valid := by
        rw [← hkey]
        exact valid_migratedKey tenancy (htimes r hr)
      have hpath : keyOfPath (outputPath sha256 x.1 g.1) = some g.1 := keyOfPath_dir hvalid _
      rw [located, hpath, List.map_map]
      exact (perm_sortRecords g.2).map _
    have hrows : (x.2.rows.map fun r => (some (migratedKey tenancy r), rekeyed tables r))
        = (records.map fun r => (migratedKey tenancy r, r)).map (Prod.map some id) := by
      rw [hrecords, List.map_map, List.map_map]
      rfl
    have hperm := List.Perm.flatMap_left (regroup tenancy records) hgroup
    refine hperm.trans ?_
    rw [if_pos (by rfl), hrows, ← List.map_flatMap]
    exact (perm_regroup tenancy records).map _

theorem bare_destined (x : Path × StoredFile) :
    (destined tenancy tables x).map (fun e => bare e.2) = x.2.rows.map bare := by
  unfold destined
  split
  · rw [List.map_map]
    exact List.map_congr_left fun r _ => bare_rekeyed tables r
  · rw [located, List.map_map]
    show ((x.2.settled tables).rows).map bare = _
    unfold StoredFile.settled
    split
    · show ((x.2.rows.map (rekeyed tables))).map bare = _
      rw [List.map_map]
      exact List.map_congr_left fun r _ => bare_rekeyed tables r
    · rfl

theorem bare_located (x : Path × StoredFile) :
    (located x).map (fun e => bare e.2) = x.2.rows.map bare := by
  rw [located, List.map_map]
  rfl

/-- **The migration conserves rows and is repeatable.** However many runs stop wherever they
stop, after a run that gets to its end each row is once where it is to be with the template id it
is to have, all files are of the current layout and version, the sightings are the tallies of the
rows, and a further run changes nothing. -/
theorem migration_conserves (ha : a.Mixed) (hfree : a.NoCollision sha256 tenancy)
    (stops : List ℕ) :
    let run := Archive.migrated sha256 tenancy tables
    let b := run (Runs.run (fun a n => run a (some n)) a stops) none
    (b.files.flatMap fun x => x.2.rows.map bare).Perm
      (a.files.flatMap fun x => x.2.rows.map bare) ∧
    (b.files.flatMap located).Perm (a.files.flatMap (destined tenancy tables)) ∧
    (∀ x ∈ b.files, oldHour x.1 = none ∧ (keyOfPath x.1).isSome = true ∧
      x.2.version = some schemaVersion) ∧
    (∀ key, Assoc.get b.catalog.templateServices key
      = Tally.ofList (Tally.timesOf key (sighted b.leaves))) ∧
    (∀ stop, run b stop = b) ∧
    (migrate sha256 tenancy tables b).2
      = { MigrateReport.zero with catalogFiles := (b.listing.filterMap keyOfPath).length } := by
  intro run b
  have hapart : Rewriting.Apart (place sha256 tenancy tables) a.files := hfree.apart ha
  have hsingle := hapart.single ha.nodup
  have hstops : a.Underway sha256 tenancy tables
      (Runs.run (fun a n => run a (some n)) a stops) :=
    @Runs.run_invariant _ _ (fun a n => run a (some n)) (a.Underway sha256 tenancy tables)
      (fun _ n hd => hd.migrated hsingle (some n)) a ⟨ha.nodup, fun e => Iff.rfl⟩ stops
  obtain ⟨d, hd, hcurrent, hunderway⟩ := hstops.finished hsingle
  have hb : b = d.finish := hd
  clear_value b
  subst hb
  have hfiles : d.files.Perm (a.files.flatMap fun x => place sha256 tenancy tables x.1 x.2) :=
    perm_of_final ha.nodup hapart hunderway.nodup hunderway.goal
      fun x hx => (final_iff (hcurrent x hx).1).mpr (hcurrent x hx).2
  have hlocated : (d.files.flatMap located).Perm (a.files.flatMap (destined tenancy tables)) := by
    refine (hfiles.flatMap_right located).trans ?_
    rw [List.flatMap_assoc]
    exact List.Perm.flatMap_left _ fun x hx => perm_located_place (ha.times x hx)
  refine ⟨?_, hlocated, ?_, ?_, hcurrent.migrated_finish, ?_⟩
  · have hbare := hlocated.map fun e => bare e.2
    rw [List.map_flatMap, List.map_flatMap] at hbare
    simp only [bare_located, bare_destined] at hbare
    exact hbare
  · intro x hx
    refine ⟨(hcurrent x hx).1, ?_, (hcurrent x hx).2⟩
    obtain ⟨y, hy, hxy⟩ := List.mem_flatMap.mp (hfiles.mem_iff.mp hx)
    cases hold : oldHour y.1 with
    | none =>
      rw [stays_of_new hold y.2 x hxy]
      exact (ha.layout y.1 (List.mem_map_of_mem hy)).resolve_left (by rw [hold]; exact nofun)
    | some hour =>
      obtain ⟨r, hr, hpath⟩ := exists_of_mem_place (by rw [hold]; rfl) hxy
      have hkey := keyOfPath_dir (valid_migratedKey tenancy (ha.times y hy r hr))
      rw [hpath]
      exact Option.isSome_iff_exists.mpr ⟨_, hkey _⟩
  · intro key
    rw [Archive.templateServices_finish, Catalog.get_replaceSightings]
    rfl
  · rw [@migrate_current sha256 tenancy tables d.finish hcurrent]

end

/-! ## A store of both layouts -/

def exampleTables : TemplateTables :=
  ⟨[(1, ⟨"user <NUM> logged in".toList, "user\t<NUM>\tlogged\tin".toList, 1, 0, 0, 7⟩)], [], 0⟩

def exampleRow (hour : ℕ) (templateId : Option ℕ) : LogRecord :=
  { LogRecord.new (.nowV7 1 (List.replicate 10 0) length_zeros) (hour * nanosPerHour) .INFO [] with
    templateId := templateId }

/-- An old file with rows of two hours, and two files of the current tree: the first one has a
counter, and the same number is a hash in the second one. -/
def exampleArchive : Archive where
  files :=
    [(["hour=1970-01-21T20".toList, "level=info".toList, "a.parquet".toList],
        ⟨none, [exampleRow 500 (some 1), exampleRow 100 (some 9), exampleRow 500 none]⟩),
      (PartitionKey.dir ⟨defaultTenant, defaultIndex, 501, "info".toList, "node-a".toList⟩
          ++ ["b.parquet".toList], ⟨some "3".toList, [exampleRow 501 (some 1)]⟩),
      (PartitionKey.dir ⟨defaultTenant, defaultIndex, 502, "info".toList, "node-a".toList⟩
          ++ ["c.parquet".toList], ⟨some schemaVersion, [exampleRow 502 (some 1)]⟩)]
  catalog := .empty

theorem length_exampleDigests :
    ([22, 25, 108, 17, 114, 49, 231, 173, 112, 10, 93, 238, 149, 31, 203, 153, 169, 37, 202, 54, 8,
      128, 95, 44, 141, 25, 78, 128, 67, 58, 138, 180] : List UInt8).length = 32 ∧
    ([192, 182, 107, 72, 32, 162, 245, 159, 95, 111, 208, 190, 243, 104, 0, 20, 79, 61, 7, 39, 200,
      5, 59, 152, 96, 5, 166, 227, 56, 225, 49, 221] : List UInt8).length = 32 := ⟨rfl, rfl⟩

/-- SHA-256 of the texts that name the outputs of the old file. -/
def exampleSha256 (text : Text) : ByteArr 32 :=
  if text = "hour=1970-01-21T20/level=info/a.parquet\x1f500".toList then
    ⟨_, length_exampleDigests.1⟩
  else ⟨_, length_exampleDigests.2⟩

theorem migration_conserves_twice :
    let run := Archive.migrated exampleSha256 Agent.plainSettings.tenancy exampleTables
    let b := run (run (run exampleArchive (some 1)) (some 2)) none
    (b.files.flatMap fun x => x.2.rows.map bare).Perm
      (exampleArchive.files.flatMap fun x => x.2.rows.map bare) ∧ run b none = b := by
  have hmixed : exampleArchive.Mixed :=
    ⟨by decide +kernel, by decide +kernel, by decide +kernel, by decide +kernel⟩
  have hfree : exampleArchive.NoCollision exampleSha256 Agent.plainSettings.tenancy :=
    ⟨by decide +kernel, by decide +kernel⟩
  have h := @migration_conserves exampleSha256 Agent.plainSettings.tenancy exampleTables
    exampleArchive hmixed hfree [1, 2]
  exact ⟨h.1, h.2.2.2.2.1 none⟩

end LogLess.Store
