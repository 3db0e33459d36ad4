import LogLess.Drain.Shapes
import LogLess.Store.Dictionary
import LogLess.Store.ExactlyOnce

/-!
# The dictionary over the runs of an instance

Records get their template ids as they come in, from a miner in memory, and are in the log with
these ids alone. What the ids stand for reaches the catalog when the segment is merged, if the
miner knows it then. A miner that is restored knows the templates that were saved, as they were
then: an id that was assigned after that, or that its template no longer has, is an id nobody
knows, unless it was registered before.
-/

namespace LogLess.Store

open Wal Frames

/-! ## The rows of a commit -/

/-- The template ids of the rows. -/
def Committed.ids (e : Committed) : List ℕ :=
  e.rows.flatMap fun g => g.2.filterMap LogRecord.templateId

/-- An id of a row has a sighting. -/
theorem mem_sightings {rows : List (PartitionKey × List LogRecord)} {id : ℕ}
    (h : id ∈ rows.flatMap fun g => g.2.filterMap LogRecord.templateId) :
    id ∈ (sightingsOf rows).map TemplateSighting.templateId := by
  obtain ⟨g, hg, hid⟩ := List.mem_flatMap.mp h
  obtain ⟨r, hr, htemplate⟩ := List.mem_filterMap.mp hid
  set key : SightingKey := (g.1.tenant, g.1.index, id, r.service) with hkey
  have hseen : (key, toI64 r.observedUnixNano) ∈ sighted rows := by
    refine List.mem_flatMap.mpr ⟨g, hg, List.mem_filterMap.mpr ⟨r, hr, ?_⟩⟩
    rw [htemplate]
    rfl
  have hget : (Assoc.get ((sightingsOf rows).map TemplateSighting.entry) key).isSome = true := by
    rw [map_entry_sightingsOf, Tally.get_foldl_record, Assoc.get_nil, Tally.join_none_left,
      Option.isSome_iff_ne_none]
    intro hnone
    have hmem : toI64 r.observedUnixNano ∈ Tally.timesOf key (sighted rows) :=
      List.mem_map.mpr ⟨_, List.mem_filter.mpr ⟨hseen, by simp⟩, rfl⟩
    rw [Tally.ofList_eq_none.mp hnone] at hmem
    exact List.not_mem_nil hmem
  obtain ⟨e, he, heq⟩ := List.mem_map.mp (Assoc.isSome_get.mp hget)
  obtain ⟨s, hs, rfl⟩ := List.mem_map.mp he
  refine List.mem_map.mpr ⟨s, hs, ?_⟩
  exact congrArg (fun k : SightingKey => k.2.2.1) heq

section

variable {δ : Type} {addLine : Miner δ} {P : δ → Prop}

/-- What every line keeps, the rows of a segment keep. -/
theorem segmentRows_keeps (h : ∀ s line now, P s → P (addLine s line now).1) (tenancy : Tenancy)
    (now : ℕ) {state : δ} (hs : P state) (report : MergeReport) (batches : List Batch) :
    P (segmentRows tenancy addLine now (state, report) batches).1.1 ∧
      (segmentRows tenancy addLine now (state, report) batches).1.2.segmentsMerged
        = report.segmentsMerged := by
  have hone : ∀ (x : δ × MergeReport) (r : LogRecord), P x.1 →
      P (assignTemplate addLine now x r).1.1 ∧
        (assignTemplate addLine now x r).1.2.segmentsMerged = x.2.segmentsMerged := by
    intro x r hx
    unfold assignTemplate
    simp only
    split
    · exact ⟨hx, rfl⟩
    · have hline := h x.1 r.body now hx
      generalize addLine x.1 r.body now = mined at hline
      obtain ⟨d, m⟩ := mined
      cases m <;> exact ⟨hline, rfl⟩
  have hrecords : ∀ (rs : List LogRecord) (x : δ × MergeReport), P x.1 →
      P (assignTemplates addLine now x rs).1.1 ∧
        (assignTemplates addLine now x rs).1.2.segmentsMerged = x.2.segmentsMerged := by
    intro rs
    induction rs with
    | nil => exact fun x hx => ⟨hx, rfl⟩
    | cons r rs ih =>
      intro x hx
      obtain ⟨hr, hcount⟩ := hone x r hx
      obtain ⟨hrest, hcount'⟩ := ih _ hr
      exact ⟨hrest, hcount'.trans hcount⟩
  have hgroups : ∀ (groups : List (PartitionKey × List LogRecord)) (x : δ × MergeReport), P x.1 →
      P (assignPartitions addLine now x groups).1.1 ∧
        (assignPartitions addLine now x groups).1.2.segmentsMerged = x.2.segmentsMerged := by
    intro groups
    induction groups with
    | nil => exact fun x hx => ⟨hx, rfl⟩
    | cons g groups ih =>
      intro x hx
      obtain ⟨hg, hcount⟩ := hrecords g.2 x hx
      obtain ⟨hrest, hcount'⟩ := ih _ hg
      exact ⟨hrest, hcount'.trans hcount⟩
  exact hgroups _ (state, _) hs

end

theorem mineLogged_eq (s : Drain × List ℕ) (line : Text) (now : ℕ) :
    (mineLogged s line now).1 = ((s.1.addLine line now).1,
      s.2 ++ ((s.1.addLine line now).2.map Match.shapeId).toList) := by
  unfold mineLogged mine
  simp only
  generalize s.1.addLine line now = mined
  obtain ⟨d, m⟩ := mined
  cases m <;> rfl

/-- The miner after a segment knows what it knew, and every id it assigned. -/
theorem segmentRows_mineLogged (tenancy : Tenancy) (now : ℕ) {drain : Drain}
    (hdrain : drain.Shapely) (report : MergeReport) (batches : List Batch) :
    (segmentRows tenancy mineLogged now ((drain, []), report) batches).1.1.1.Shapely ∧
      drain.Extends (segmentRows tenancy mineLogged now ((drain, []), report) batches).1.1.1 ∧
      (∀ id ∈ (segmentRows tenancy mineLogged now ((drain, []), report) batches).1.1.2,
        (Assoc.get (segmentRows tenancy mineLogged now ((drain, []), report)
          batches).1.1.1.shapes id).isSome = true) ∧
      (segmentRows tenancy mineLogged now ((drain, []), report) batches).1.2.segmentsMerged
        = report.segmentsMerged := by
  have hkeeps := @segmentRows_keeps (Drain × List ℕ) mineLogged
    (fun s => s.1.Shapely ∧ drain.Extends s.1 ∧
      ∀ id ∈ s.2, (Assoc.get s.1.shapes id).isSome = true) (by
      intro s line now hs
      obtain ⟨hshapely, hextends, hlog⟩ := hs
      obtain ⟨hnext, hgrows, hassigned⟩ := hshapely.addLine line now
      rw [mineLogged_eq]
      refine ⟨hnext, hextends.trans hgrows, ?_⟩
      intro id hid
      rcases List.mem_append.mp hid with hold | hnew
      · exact hgrows.isSome (hlog id hold)
      · rw [Option.mem_toList, Option.map_eq_some_iff] at hnew
        obtain ⟨m, hm, rfl⟩ := hnew
        exact hassigned m hm)
    tenancy now (drain, []) ⟨hdrain, Drain.Extends.refl drain, fun id hid => by cases hid⟩ report
    batches
  exact ⟨hkeeps.1.1, hkeeps.1.2.1, hkeeps.1.2.2, hkeeps.2⟩

/-! ## Changes -/

namespace TemplateTables

variable {t : TemplateTables}

/-- Every shape of the table is under the hash of its text. -/
def Hashed (t : TemplateTables) : Prop :=
  ∀ id shape, Assoc.get t.shapes id = some shape → fingerprintOf shape.text = id

/-- No shape is forgotten. -/
def Extends (t t' : TemplateTables) : Prop :=
  ∀ id shape, Assoc.get t.shapes id = some shape → Assoc.get t'.shapes id = some shape

theorem registerShape_spec (h : t.Hashed) {s : ShapeRow}
    (hs : fingerprintOf s.text = s.templateId) :
    (t.registerShape s).Hashed ∧ t.Extends (t.registerShape s) ∧
      (Assoc.get (t.registerShape s).shapes s.templateId).isSome = true := by
  unfold registerShape
  cases hget : Assoc.get t.shapes s.templateId with
  | some shape =>
    simp only
    split
    · exact ⟨h, fun _ _ hx => hx, by rw [hget]; rfl⟩
    · exact ⟨h, fun _ _ hx => hx, by rw [hget]; rfl⟩
  | none =>
    refine ⟨?_, ?_, ?_⟩
    · intro id shape hx
      simp only at hx
      rw [Assoc.get_insert] at hx
      split at hx
      · next hid =>
        cases hx
        exact hs.trans hid.symm
      · exact h id shape hx
    · intro id shape hx
      simp only
      rw [Assoc.get_insert, if_neg]
      · exact hx
      · intro hid
        rw [hid, hget] at hx
        cases hx
    · simp only
      rw [Assoc.get_insert, if_pos rfl]
      rfl

theorem registerShapes_spec {ss : List ShapeRow} (h : t.Hashed)
    (hs : ∀ s ∈ ss, fingerprintOf s.text = s.templateId) :
    (t.registerShapes ss).Hashed ∧ t.Extends (t.registerShapes ss) ∧
      ∀ s ∈ ss, (Assoc.get (t.registerShapes ss).shapes s.templateId).isSome = true := by
  unfold registerShapes
  induction ss generalizing t with
  | nil => exact ⟨h, fun _ _ hx => hx, fun s hs => absurd hs List.not_mem_nil⟩
  | cons s ss ih =>
    obtain ⟨hone, hextends, hsome⟩ := registerShape_spec h (hs s List.mem_cons_self)
    obtain ⟨hrest, hextends', hsome'⟩ := ih hone fun s hmem => hs s (List.mem_cons_of_mem _ hmem)
    refine ⟨hrest, fun id shape hx => hextends' id shape (hextends id shape hx), ?_⟩
    intro s' hs'
    rcases List.mem_cons.mp hs' with rfl | hmem
    · obtain ⟨shape, hshape⟩ := Option.isSome_iff_exists.mp hsome
      rw [List.foldl_cons, hextends' _ shape hshape]
      rfl
    · exact hsome' s' hmem

@[simp] theorem shapes_saveTemplates (t : TemplateTables) (ts : List Template) :
    (t.saveTemplates ts).shapes = t.shapes := by
  unfold saveTemplates
  induction ts generalizing t with
  | nil => rfl
  | cons template ts ih => exact ih _

end TemplateTables

namespace Volume

/-- The catalog and the dictionary are the same. -/
structure Same (v v' : Volume) : Prop where
  catalog : v'.disk.catalog = v.disk.catalog
  tables : v'.tables = v.tables
  dictionary : v'.dictionary = v.dictionary
  log : v'.log = v.log

theorem same_applyAll {v : Volume} {changes : List VolumeChange}
    (h : changes.all VolumeChange.isFile = true) : v.Same (v.applyAll changes) := by
  unfold applyAll
  induction changes generalizing v with
  | nil => exact ⟨rfl, rfl, rfl, rfl⟩
  | cons change changes ih =>
    rw [List.all_cons, Bool.and_eq_true] at h
    have hone : v.Same (v.apply change) := by
      cases change with
      | truncate => exact ⟨rfl, rfl, rfl, rfl⟩
      | write => exact ⟨rfl, rfl, rfl, rfl⟩
      | remove => exact ⟨rfl, rfl, rfl, rfl⟩
      | registerShapes | commit | saveTemplates | writeDictionary => cases h.1
    have hrest := @ih (v.apply change) h.2
    exact ⟨hrest.catalog.trans hone.catalog, hrest.tables.trans hone.tables,
      hrest.dictionary.trans hone.dictionary, hrest.log.trans hone.log⟩

theorem applyAll_append (v : Volume) (changes more : List VolumeChange) :
    v.applyAll (changes ++ more) = (v.applyAll changes).applyAll more := List.foldl_append

/-- What the catalog says of templates: its sightings are the tallies of the rows that were
committed, its shapes are under the hashes of their texts, and every id that was assigned here
to a row that was committed has a shape. -/
structure Exact (v : Volume) : Prop where
  tally : ∀ key, Assoc.get v.disk.catalog.templateServices key
    = Tally.ofList (Tally.timesOf key (v.log.flatMap fun e => sighted e.rows))
  hashed : v.tables.Hashed
  named : ∀ e ∈ v.log, ∀ id ∈ e.assigned, id ∈ e.ids →
    (Assoc.get v.tables.shapes id).isSome = true

theorem exact_empty : Volume.empty.Exact where
  tally _ := rfl
  hashed id shape hget := by cases hget
  named e he := absurd he List.not_mem_nil

theorem Exact.same {v v' : Volume} (h : v.Exact) (hsame : v.Same v') : v'.Exact where
  tally key := by rw [hsame.catalog, hsame.log, h.tally]
  hashed := by rw [hsame.tables]; exact h.hashed
  named := by rw [hsame.log, hsame.tables]; exact h.named

/-- The ids that were assigned to records when they came in are known, registered, or of
segments that are merged. -/
def Knows (v : Volume) (own : List (Uuid × ℕ)) (drain : Drain) : Prop :=
  ∀ x ∈ own, v.disk.catalog.isSegmentMerged x.1 = true ∨
    (Assoc.get v.tables.shapes x.2).isSome = true ∨ (Assoc.get drain.shapes x.2).isSome = true

/-- The catalog has at least the sightings and the shapes it had. -/
structure Grows (v v' : Volume) : Prop where
  services : ∀ key, (Assoc.get v.disk.catalog.templateServices key).isSome = true →
    (Assoc.get v'.disk.catalog.templateServices key).isSome = true
  shapes : v.tables.Extends v'.tables
  merged : ∀ uuid, v.disk.catalog.isSegmentMerged uuid = true →
    v'.disk.catalog.isSegmentMerged uuid = true
  dictionary : v'.dictionary = v.dictionary

theorem Grows.of_same {v v' : Volume} (h : v.Same v') : v.Grows v' where
  services key hkey := by rw [h.catalog]; exact hkey
  shapes id shape hget := by rw [h.tables]; exact hget
  merged uuid huuid := by rw [h.catalog]; exact huuid
  dictionary := h.dictionary

theorem Grows.trans {v v' v'' : Volume} (h : v.Grows v') (h' : v'.Grows v'') : v.Grows v'' where
  services key hkey := h'.services key (h.services key hkey)
  shapes id shape hget := h'.shapes id shape (h.shapes id shape hget)
  merged uuid huuid := h'.merged uuid (h.merged uuid huuid)
  dictionary := h'.dictionary.trans h.dictionary

theorem Knows.grows {v v' : Volume} {own : List (Uuid × ℕ)} {drain drain' : Drain}
    (h : v.Knows own drain) (hgrows : v.Grows v') (hdrain : drain.Extends drain') :
    v'.Knows own drain' := by
  intro x hx
  rcases h x hx with hmerged | hshape | hknown
  · exact .inl (hgrows.merged x.1 hmerged)
  · obtain ⟨shape, hshape⟩ := Option.isSome_iff_exists.mp hshape
    right
    left
    rw [hgrows.shapes x.2 shape hshape]
    rfl
  · exact .inr (.inr (hdrain.isSome hknown))

/-- A segment is merged: what its rows carry and the miner knows is registered, and the commit
adds the tallies of its rows. -/
theorem Exact.merge {v : Volume} (h : v.Exact) {own : List (Uuid × ℕ)} {drain drain' : Drain}
    (hdrain : drain'.Shapely) (hextends : drain.Extends drain') (hknows : v.Knows own drain)
    {entry : Committed} (hnew : v.disk.catalog.isSegmentMerged entry.uuid = false)
    (hassigned : ∀ id ∈ entry.assigned, (Assoc.get drain'.shapes id).isSome = true ∨
      (entry.uuid, id) ∈ own)
    (dir : WalDir) (now segmentId : ℕ) (replay : Replay) :
    (v.applyAll (segmentChanges dir now segmentId replay drain' entry)).Exact ∧
      v.Grows (v.applyAll (segmentChanges dir now segmentId replay drain' entry)) := by
  set files := (if replay.outcome.truncatedTo.isSome then
      [VolumeChange.truncate dir segmentId replay.bytes] else [])
    ++ (entry.rows.map fun x =>
      VolumeChange.write (filePath x.1 segmentId entry.uuid) x.2) with hfiles
  have hisFile : files.all VolumeChange.isFile = true := by
    rw [hfiles, List.all_append, List.all_map, Bool.and_eq_true]
    refine ⟨by split <;> rfl, List.all_eq_true.mpr fun _ _ => rfl⟩
  have hsame := same_applyAll (v := v) hisFile
  set v₁ := v.applyAll files
  set rows := shapesOf drain' entry.rows with hrows
  set v' := v.applyAll (segmentChanges dir now segmentId replay drain' entry) with hv'
  have hexact := h.same hsame
  have hall : v' = (((v₁.apply (.registerShapes rows)).apply (.commit segmentId
      (entriesOf segmentId entry.uuid entry.rows) (sightingsOf entry.rows) now entry)).apply
        (.saveTemplates drain'.templates)).apply (.remove dir segmentId) := by
    rw [hv', segmentChanges, applyAll_append]
    rfl
  have hcatalog : v'.disk.catalog = v₁.disk.catalog.commitMerge segmentId entry.uuid
      (entriesOf segmentId entry.uuid entry.rows) (sightingsOf entry.rows) now := by
    rw [hall]
    rfl
  have hshapes : v'.tables.shapes = (v₁.tables.registerShapes rows).shapes := by
    rw [hall]
    exact TemplateTables.shapes_saveTemplates _ _
  have hlog : v'.log = v.log ++ [entry] := by
    rw [hall, ← hsame.log]
    rfl
  have hdictionary : v'.dictionary = v.dictionary := by
    rw [hall, ← hsame.dictionary]
    rfl
  have hrowsHash : ∀ s ∈ rows, fingerprintOf s.text = s.templateId := by
    intro s hs
    rw [hrows] at hs
    obtain ⟨id, -, hid⟩ := List.mem_filterMap.mp hs
    obtain ⟨shape, hshape, rfl⟩ := Option.map_eq_some_iff.mp hid
    exact hdrain.hash id shape hshape
  obtain ⟨hhashed, hgrows, hregistered⟩ :=
    TemplateTables.registerShapes_spec hexact.hashed hrowsHash
  have hextendsTables : v.tables.Extends v'.tables := by
    intro id shape hget
    rw [hshapes]
    exact hgrows id shape (by rw [hsame.tables]; exact hget)
  have hisSome : ∀ id, (Assoc.get v.tables.shapes id).isSome = true →
      (Assoc.get v'.tables.shapes id).isSome = true := by
    intro id hid
    obtain ⟨shape, hshape⟩ := Option.isSome_iff_exists.mp hid
    rw [hextendsTables id shape hshape]
    rfl
  -- what the miner knows of the ids of the rows is registered
  have hknown : ∀ id ∈ entry.ids, (Assoc.get drain'.shapes id).isSome = true →
      (Assoc.get v'.tables.shapes id).isSome = true := by
    intro id hid hsome
    obtain ⟨shape, hshape⟩ := Option.isSome_iff_exists.mp hsome
    rw [hshapes]
    refine hregistered ⟨id, shape.lineageId, shape.text⟩ ?_
    rw [hrows]
    refine List.mem_filterMap.mpr ⟨id, List.mem_dedup.mpr (mem_sightings hid), ?_⟩
    rw [hshape]
    rfl
  refine ⟨⟨?_, ?_, ?_⟩, ⟨?_, hextendsTables, ?_, hdictionary⟩⟩
  · intro key
    rw [hcatalog, Catalog.get_templateServices_commitMerge, hlog, List.flatMap_append,
      Tally.timesOf_append, Tally.ofList_append, hexact.tally, hsame.log]
    simp
  · intro id shape hget
    rw [hshapes] at hget
    exact hhashed id shape hget
  · intro e he id hid hrow
    rw [hlog] at he
    rcases List.mem_append.mp he with hold | hlast
    · exact hisSome id (h.named e hold id hid hrow)
    · rw [List.mem_singleton.mp hlast] at hid hrow
      rcases hassigned id hid with hsome | hown
      · exact hknown id hrow hsome
      · rcases hknows _ hown with hmerged | hshape | hminer
        · rw [hnew] at hmerged
          cases hmerged
        · exact hisSome id hshape
        · exact hknown id hrow (hextends.isSome hminer)
  · intro key hkey
    rw [hcatalog, Catalog.get_templateServices_commitMerge, hsame.catalog,
      Option.isSome_iff_ne_none]
    intro hnone
    rw [(Tally.join_eq_none.mp hnone).1] at hkey
    cases hkey
  · intro uuid huuid
    rw [hcatalog, Catalog.isSegmentMerged_commitMerge, hsame.catalog]
    exact .inr huuid

end Volume

/-! ## A pass -/

section

variable {c : Codec} {tenancy : Tenancy} {own : List (Uuid × ℕ)} {dir : WalDir} {now : ℕ}

/-- What is done for one segment. A segment that is not merged only loses its file. -/
theorem mergeSegmentChanges_spec {v : Volume} (h : v.Exact) {drain : Drain}
    (hdrain : drain.Shapely) (hknows : v.Knows own drain) {report : MergeReport} {f : WalFile}
    {changes : List VolumeChange} {state : Drain × MergeReport}
    (hsegment : mergeSegmentChanges c tenancy own dir now v.disk.catalog (drain, report) f
      = .ok (changes, state)) :
    (v.applyAll changes).Exact ∧ v.Grows (v.applyAll changes) ∧ state.1.Shapely ∧
      drain.Extends state.1 ∧ report.segmentsMerged ≤ state.2.segmentsMerged ∧
      (state.2.segmentsMerged = report.segmentsMerged →
        changes.all VolumeChange.isFile = true) := by
  unfold mergeSegmentChanges at hsegment
  simp only at hsegment
  have hremoved : ∀ report' : MergeReport, state = (drain, report') →
      report'.segmentsMerged = report.segmentsMerged → changes = [.remove dir f.id] →
      (v.applyAll changes).Exact ∧ v.Grows (v.applyAll changes) ∧ state.1.Shapely ∧
        drain.Extends state.1 ∧ report.segmentsMerged ≤ state.2.segmentsMerged ∧
        (state.2.segmentsMerged = report.segmentsMerged →
          changes.all VolumeChange.isFile = true) := by
    rintro report' rfl hcount rfl
    have hsame := @Volume.same_applyAll v [.remove dir f.id] rfl
    exact ⟨h.same hsame, .of_same hsame, hdrain, .refl drain, hcount.ge, fun _ => rfl⟩
  by_cases hheader : isIncompleteHeader f.bytes = true
  · rw [if_pos hheader, Except.ok.injEq, Prod.mk.injEq] at hsegment
    exact hremoved _ hsegment.2.symm rfl hsegment.1.symm
  rw [if_neg hheader] at hsegment
  cases huuid : segmentUuid f.bytes with
  | error e =>
    rw [huuid] at hsegment
    cases hsegment
  | ok uuid =>
    rw [huuid] at hsegment
    simp only at hsegment
    by_cases hmerged : v.disk.catalog.isSegmentMerged uuid = true
    · rw [if_pos hmerged, Except.ok.injEq, Prod.mk.injEq] at hsegment
      exact hremoved _ hsegment.2.symm rfl hsegment.1.symm
    rw [if_neg hmerged] at hsegment
    rw [Bool.not_eq_true] at hmerged
    cases hreplay : replaySegment c true f.bytes with
    | error e =>
      rw [hreplay] at hsegment
      cases hsegment
    | ok replay =>
      rw [hreplay] at hsegment
      simp only at hsegment
      set report₁ : MergeReport := { report with
        truncated := report.truncated + if replay.outcome.truncatedTo.isSome = true then 1 else 0 }
      obtain ⟨hshapely, hextends, hmined, hcount⟩ :=
        segmentRows_mineLogged tenancy now hdrain report₁ replay.visited
      set merged := segmentRows tenancy mineLogged now ((drain, []), report₁) replay.visited
      set entry : Committed :=
        ⟨uuid, merged.2, merged.1.1.2 ++ (own.filter fun x => x.1 = uuid).map Prod.snd⟩
      have hassigned : ∀ id ∈ entry.assigned,
          (Assoc.get merged.1.1.1.shapes id).isSome = true ∨ (entry.uuid, id) ∈ own := by
        intro id hid
        rcases List.mem_append.mp hid with hlog | hown
        · exact .inl (hmined id hlog)
        · obtain ⟨x, hx, rfl⟩ := List.mem_map.mp hown
          obtain ⟨hx, huuid'⟩ := List.mem_filter.mp hx
          rw [decide_eq_true_eq] at huuid'
          right
          show (uuid, x.2) ∈ own
          rw [← huuid']
          exact hx
      rw [Except.ok.injEq, Prod.mk.injEq] at hsegment
      obtain ⟨rfl, rfl⟩ := hsegment
      have hnew : v.disk.catalog.isSegmentMerged entry.uuid = false := hmerged
      obtain ⟨hexact, hgrows⟩ := h.merge hshapely hextends hknows hnew hassigned dir now f.id replay
      refine ⟨hexact, hgrows, hshapely, hextends, ?_, ?_⟩
      · rw [hcount]
        exact Nat.le_succ _
      · intro heq
        rw [hcount] at heq
        exact absurd heq (Nat.succ_ne_self _)

/-- The loop, to its end or to a segment that cannot be read. -/
theorem mergeLoopChanges_spec {v : Volume} (h : v.Exact) {state : Drain × MergeReport}
    (hdrain : state.1.Shapely) (hknows : v.Knows own state.1) (files : List WalFile) :
    (v.applyAll (mergeLoopChanges c tenancy own dir now files v state).1).Exact ∧
      v.Grows (v.applyAll (mergeLoopChanges c tenancy own dir now files v state).1) ∧
      (mergeLoopChanges c tenancy own dir now files v state).2.1.Shapely ∧
      state.1.Extends (mergeLoopChanges c tenancy own dir now files v state).2.1 ∧
      ∀ report, (mergeLoopChanges c tenancy own dir now files v state).2.2 = .ok report →
        state.2.segmentsMerged ≤ report.segmentsMerged ∧
        (report.segmentsMerged = state.2.segmentsMerged →
          (mergeLoopChanges c tenancy own dir now files v state).1.all VolumeChange.isFile
            = true) := by
  induction files generalizing v state with
  | nil =>
    refine ⟨h, .of_same ⟨rfl, rfl, rfl, rfl⟩, hdrain, .refl _, ?_⟩
    intro report hreport
    cases hreport
    exact ⟨le_rfl, fun _ => rfl⟩
  | cons f files ih =>
    unfold mergeLoopChanges
    cases hsegment : mergeSegmentChanges c tenancy own dir now v.disk.catalog state f with
    | error e => exact ⟨h, .of_same ⟨rfl, rfl, rfl, rfl⟩, hdrain, .refl _, fun _ hreport => by
        cases hreport⟩
    | ok x =>
      obtain ⟨changes, state'⟩ := x
      obtain ⟨hexact, hgrows, hdrain', hextends, hle, hfiles⟩ :=
        mergeSegmentChanges_spec h hdrain hknows hsegment
      obtain ⟨hexact', hgrows', hdrain'', hextends', hreport⟩ :=
        ih hexact hdrain' (hknows.grows hgrows hextends)
      simp only
      rw [Volume.applyAll_append]
      refine ⟨hexact', hgrows.trans hgrows', hdrain'', hextends.trans hextends', ?_⟩
      intro report heq
      obtain ⟨hle', hfiles'⟩ := hreport report heq
      refine ⟨hle.trans hle', fun hsame => ?_⟩
      rw [List.all_append, hfiles (by omega), hfiles' (by omega)]
      rfl

end

/-! ## The files -/

namespace Volume

variable {v v' : Volume}

theorem mem_rowsFromCatalog {r : DictRow} : r ∈ v.rowsFromCatalog ↔
    ∃ key tally, (key, tally) ∈ v.disk.catalog.templateServices ∧
      dictRow v.tables.shapes key tally = some r := by
  unfold rowsFromCatalog
  rw [List.mem_filterMap, Prod.exists]

theorem dictRow_eq_some {shapes : List (ℕ × Shape)} {key : SightingKey} {tally : ℕ × ℤ × ℤ}
    {r : DictRow} (h : dictRow shapes key tally = some r) :
    (r.tenant, r.index, r.templateId, r.service) = key ∧
      ∃ shape, Assoc.get shapes key.2.2.1 = some shape := by
  obtain ⟨shape, hshape, rfl⟩ := Option.map_eq_some_iff.mp h
  exact ⟨rfl, shape, hshape⟩

theorem mem_dictionaryScopes {scope : Text × Text} :
    scope ∈ v.dictionaryScopes ↔ ∃ r ∈ v.rowsFromCatalog, r.scope = scope := by
  unfold dictionaryScopes
  rw [(List.perm_insertionSort _ _).mem_iff, List.mem_dedup, List.mem_map]

/-- A catalog that grows has no fewer scopes. -/
theorem Grows.scopes (h : v.Grows v') {scope : Text × Text} (hscope : scope ∈ v.dictionaryScopes) :
    scope ∈ v'.dictionaryScopes := by
  obtain ⟨r, hr, rfl⟩ := mem_dictionaryScopes.mp hscope
  obtain ⟨key, tally, hmem, hrow⟩ := mem_rowsFromCatalog.mp hr
  obtain ⟨rfl, shape, hshape⟩ := dictRow_eq_some hrow
  have hkey := h.services _ (Assoc.isSome_get.mpr (List.mem_map_of_mem hmem))
  obtain ⟨tally', htally⟩ := Option.isSome_iff_exists.mp hkey
  have hrow' : dictRow v'.tables.shapes (r.tenant, r.index, r.templateId, r.service) tally'
      = some ⟨r.tenant, r.index, r.templateId, r.service, shape.text, tally'.1, tally'.2.1 / 1000,
        tally'.2.2 / 1000, shape.lineageId⟩ := by
    unfold dictRow
    simp only
    rw [h.shapes _ shape hshape]
    rfl
  exact mem_dictionaryScopes.mpr ⟨_, mem_rowsFromCatalog.mpr ⟨_, tally',
    Assoc.mem_of_get htally, hrow'⟩, rfl⟩

/-- The files are what would be written now. -/
def Fresh (v : Volume) : Prop :=
  ∀ scope, (Assoc.get v.dictionary scope).getD []
    = v.rowsFromCatalog.filter fun r => r.scope = scope

theorem fresh_empty : Volume.empty.Fresh := fun _ => rfl

theorem Fresh.same (h : v.Fresh) (hsame : v.Same v') : v'.Fresh := by
  intro scope
  rw [hsame.dictionary, h scope]
  unfold rowsFromCatalog
  rw [hsame.catalog, hsame.tables]

theorem applyAll_exported (scopes : List (Text × Text)) (rows : Text × Text → List DictRow) :
    (v.applyAll (scopes.map fun scope => .writeDictionary scope (rows scope))).disk = v.disk ∧
      (v.applyAll (scopes.map fun scope => .writeDictionary scope (rows scope))).tables
        = v.tables ∧
      (v.applyAll (scopes.map fun scope => .writeDictionary scope (rows scope))).log = v.log ∧
      ∀ scope, Assoc.get
          (v.applyAll (scopes.map fun scope => .writeDictionary scope (rows scope))).dictionary
          scope
        = if scope ∈ scopes then some (rows scope) else Assoc.get v.dictionary scope := by
  induction scopes generalizing v with
  | nil => exact ⟨rfl, rfl, rfl, fun scope => by rw [if_neg List.not_mem_nil]; rfl⟩
  | cons s scopes ih =>
    obtain ⟨hdisk, htables, hlog, hget⟩ := @ih (v.apply (.writeDictionary s (rows s)))
    refine ⟨hdisk, htables, hlog, ?_⟩
    intro scope
    refine (hget scope).trans ?_
    by_cases hmem : scope ∈ scopes
    · rw [if_pos hmem, if_pos (List.mem_cons_of_mem s hmem)]
    · rw [if_neg hmem]
      show Assoc.get (Assoc.insert v.dictionary s (rows s)) scope = _
      rw [Assoc.get_insert]
      by_cases hs : scope = s
      · rw [if_pos hs, if_pos (hs ▸ List.mem_cons_self), hs]
      · rw [if_neg hs, if_neg]
        intro hmem'
        rcases List.mem_cons.mp hmem' with heq | hmem'
        · exact hs heq
        · exact hmem hmem'

theorem filter_scope_of_notMem {scope : Text × Text} (h : scope ∉ v.dictionaryScopes) :
    (v.rowsFromCatalog.filter fun r => r.scope = scope) = [] := by
  rw [List.filter_eq_nil_iff]
  intro r hr hscope
  exact h (mem_dictionaryScopes.mpr ⟨r, hr, of_decide_eq_true hscope⟩)

/-- All files are written, and those that are not hold what they should. -/
theorem fresh_exported (h : v.Fresh) (hgrows : v.Grows v') : (v'.applyAll v'.exported).Fresh := by
  obtain ⟨hdisk, htables, -, hget⟩ := @applyAll_exported v' v'.dictionaryScopes
    fun scope => v'.rowsFromCatalog.filter fun r => r.scope = scope
  have hrows : (v'.applyAll v'.exported).rowsFromCatalog = v'.rowsFromCatalog := by
    unfold rowsFromCatalog exported
    rw [hdisk, htables]
  intro scope
  rw [hrows]
  unfold exported
  rw [hget]
  split
  · rfl
  · next hscope =>
    have hold : scope ∉ v.dictionaryScopes := fun hmem => hscope (hgrows.scopes hmem)
    rw [hgrows.dictionary, h scope, filter_scope_of_notMem hold, filter_scope_of_notMem hscope]

/-- **The row of a template in the files**, when they are what would be written now. -/
theorem Fresh.dictionaryRow (h : v.Fresh) (key : SightingKey) :
    v.dictionaryRow key
      = (Assoc.get v.disk.catalog.templateServices key).bind (dictRow v.tables.shapes key) := by
  unfold Volume.dictionaryRow
  rw [h]
  unfold rowsFromCatalog
  generalize v.disk.catalog.templateServices = services
  rw [List.find?_filter]
  induction services with
  | nil => rfl
  | cons e services ih =>
    have hget : Assoc.get (e :: services) key
        = if e.1 = key then some e.2 else Assoc.get services key := by
      unfold Assoc.get
      by_cases hkey : e.1 = key <;> simp [hkey]
    rw [hget]
    cases hrow : dictRow v.tables.shapes e.1 e.2 with
    | none =>
      have hcons : ((e :: services).filterMap fun e => dictRow v.tables.shapes e.1 e.2)
          = services.filterMap fun e => dictRow v.tables.shapes e.1 e.2 :=
        List.filterMap_cons_none hrow
      rw [hcons, ih]
      split
      · next hkey =>
        -- the text of the id is not known, so there is no row for any tally
        have hnone : ∀ tally, dictRow v.tables.shapes key tally = none := by
          intro tally
          rw [← hkey]
          exact Option.map_eq_none_iff.mpr (Option.map_eq_none_iff.mp hrow)
        rw [Option.bind_some, hnone]
        cases Assoc.get services key with
        | none => rfl
        | some tally => exact hnone tally
      · rfl
    | some r =>
      obtain ⟨hkey, -⟩ := dictRow_eq_some hrow
      have hcons : ((e :: services).filterMap fun e => dictRow v.tables.shapes e.1 e.2)
          = r :: services.filterMap fun e => dictRow v.tables.shapes e.1 e.2 :=
        List.filterMap_cons_some hrow
      rw [hcons]
      by_cases heq : e.1 = key
      · rw [if_pos heq, Option.bind_some, ← heq, hrow, List.find?_cons_of_pos]
        rw [← hkey]
        simp [DictRow.scope]
      · rw [if_neg heq, List.find?_cons_of_neg, ih]
        intro hall
        apply heq
        rw [← hkey]
        simp only [DictRow.scope, Prod.mk.injEq, decide_eq_true_eq] at hall
        obtain ⟨⟨htenant, hindex⟩, hid, hservice⟩ := hall
        rw [htenant, hindex, hid, hservice]

end Volume

/-- **A pass** leaves the catalog exact, the files as they should be and the miner knowing what
it must, unless it stops at a segment that cannot be read after it has touched the catalog. -/
theorem mergeAllChanges_spec {c : Codec} {tenancy : Tenancy} {own : List (Uuid × ℕ)}
    {v : Volume} (h : v.Exact) (hfresh : v.Fresh) {drain : Drain} (hdrain : drain.Shapely)
    (hknows : v.Knows own drain) (dir : WalDir) (active : Option ℕ) (now : ℕ) :
    let pass := mergeAllChanges c tenancy own dir active now v drain
    (pass.2.2.isOk = true ∨ pass.1.all VolumeChange.isFile = true) →
    (v.applyAll pass.1).Exact ∧ (v.applyAll pass.1).Fresh ∧ pass.2.1.Shapely ∧
      (v.applyAll pass.1).Knows own pass.2.1 ∧ drain.Extends pass.2.1 := by
  intro pass hdone
  obtain ⟨hexact, hgrows, hdrain', hextends, hreport⟩ := @mergeLoopChanges_spec c tenancy own dir
    now v h (drain, .zero) hdrain hknows ((listSegments (v.disk.wal dir)).filter fun f =>
      !skipped active f.id)
  have hpass : pass = mergeAllChanges c tenancy own dir active now v drain := rfl
  unfold mergeAllChanges at hpass
  simp only at hpass
  set loop := mergeLoopChanges c tenancy own dir now
    ((listSegments (v.disk.wal dir)).filter fun f => !skipped active f.id) v (drain, .zero)
  have hknows' := hknows.grows hgrows hextends
  cases hresult : loop.2.2 with
  | error e =>
    rw [hresult] at hpass
    simp only at hpass
    rw [hpass] at hdone ⊢
    have hfiles : loop.1.all VolumeChange.isFile = true := hdone.resolve_left Bool.false_ne_true
    exact ⟨hexact, hfresh.same (Volume.same_applyAll hfiles), hdrain', hknows', hextends⟩
  | ok report =>
    rw [hresult] at hpass
    simp only at hpass
    rw [hpass]
    simp only
    split
    · rw [Volume.applyAll_append]
      obtain ⟨hdisk, htables, hlog, -⟩ := @Volume.applyAll_exported (v.applyAll loop.1)
        (v.applyAll loop.1).dictionaryScopes
        fun scope => (v.applyAll loop.1).rowsFromCatalog.filter fun r => r.scope = scope
      refine ⟨⟨?_, ?_, ?_⟩, Volume.fresh_exported hfresh hgrows, hdrain', ?_, hextends⟩
      · intro key
        unfold Volume.exported
        rw [hdisk, hlog]
        exact hexact.tally key
      · unfold Volume.exported
        rw [htables]
        exact hexact.hashed
      · unfold Volume.exported
        rw [htables, hlog]
        exact hexact.named
      · unfold Volume.Knows Volume.exported
        rw [hdisk, htables]
        exact hknows'
    · next hrewrite =>
      rw [List.append_nil]
      rw [Bool.or_eq_true, decide_eq_true_eq, not_or] at hrewrite
      have hfiles := (hreport report hresult).2 (by
        have hzero : (MergeReport.zero).segmentsMerged = 0 := rfl
        simp only [hzero]
        omega)
      exact ⟨hexact, hfresh.same (Volume.same_applyAll hfiles), hdrain', hknows', hextends⟩

/-! ## An instance -/

/-- A record that came in, and whether its template id was assigned here. -/
structure InFlight where
  record : LogRecord
  assigned : Bool
deriving DecidableEq

/-- A pass of `merge_all` over one log directory. -/
structure MergePass where
  tenancy : Tenancy
  dir : WalDir
  active : Option ℕ
  now : ℕ

structure Instance where
  volume : Volume
  /-- The miner, while the process runs. -/
  drain : Option Drain
  /-- The records that came in since the process was started. -/
  pending : List InFlight
  /-- The ids that were assigned to records of a segment when they came in, for the statements
  only. -/
  own : List (Uuid × ℕ)

inductive Happening where
  /-- A record comes in. -/
  | process (record : LogRecord) (now : ℕ)
  /-- A segment is as its writer leaves it. -/
  | segment (dir : WalDir) (s : Segment)
  | headerless (dir : WalDir) (id : ℕ) (bytes : Bytes)
  /-- A pass, to its end or to a segment that cannot be read. -/
  | merge (pass : MergePass)
  /-- The process ends, perhaps in a pass, after some changes of it. -/
  | crash (during : Option (MergePass × ℕ))
  | restart

namespace Instance

def new : Instance := ⟨.empty, some (Drain.restore .default []), [], []⟩

/-- The miner a restart begins with. -/
def restored (i : Instance) : Drain := Drain.restore .default i.volume.tables.loadTemplates

variable (c : Codec)

/-- What a pass would do now. -/
def passOf (i : Instance) (drain : Drain) (pass : MergePass) :
    List VolumeChange × Drain × Except WalError MergeReport :=
  mergeAllChanges c pass.tenancy i.own pass.dir pass.active pass.now i.volume drain

/-- A record gets its template id as it comes in, if it has none. -/
def process (i : Instance) (drain : Drain) (record : LogRecord) (now : ℕ) : Instance :=
  match record.templateId with
  | some _ => { i with pending := i.pending ++ [⟨record, false⟩] }
  | none =>
    match drain.addLine record.body now with
    | (drain, some m) =>
      { i with
        drain := some drain
        pending := i.pending ++ [⟨{ record with templateId := some m.shapeId }, true⟩] }
    | (drain, none) =>
      { i with drain := some drain, pending := i.pending ++ [⟨record, false⟩] }

/-- The ids that were assigned here to the records of a segment. -/
def assignedTo (i : Instance) (s : Segment) : List (Uuid × ℕ) :=
  (i.pending.filter fun p => p.assigned && s.records.contains p.record).filterMap fun p =>
    p.record.templateId.map fun id => (s.uuid, id)

/-- A step. What cannot happen changes nothing: a segment holds records that came in, and a
process that has ended does nothing until it is started again. -/
def step (i : Instance) : Happening → Instance
  | .process record now =>
    match i.drain with
    | none => i
    | some drain => i.process drain record now
  | .segment dir s =>
    if s.records.all fun r => i.pending.any fun p => p.record = r then
      { i with
        volume := { i.volume with
          disk := i.volume.disk.addFile dir ⟨s.id, segmentBytes s.uuid (s.body c)⟩ }
        own := i.own ++ i.assignedTo s }
    else i
  | .headerless dir id bytes =>
    { i with volume := { i.volume with disk := i.volume.disk.addFile dir ⟨id, bytes⟩ } }
  | .merge pass =>
    match i.drain with
    | none => i
    | some drain =>
      let (changes, drain, _) := i.passOf c drain pass
      { i with volume := i.volume.applyAll changes, drain := some drain }
  | .crash none => { i with drain := none }
  | .crash (some (pass, stop)) =>
    match i.drain with
    | none => i
    | some drain =>
      { i with
        volume := i.volume.applyAll ((i.passOf c drain pass).1.take stop)
        drain := none }
  | .restart =>
    match i.drain with
    | none => { i with drain := some i.restored, pending := [] }
    | some _ => i

/-- A pass that has touched the catalog gets to its end, and when the process is started again
every id that was assigned here to a record of a segment that is not merged is registered or is
the hash of a template that was saved. -/
def ok (i : Instance) : Happening → Bool
  | .process .. | .segment .. | .headerless .. | .crash none => true
  | .merge pass =>
    i.drain.all fun drain =>
      (i.passOf c drain pass).2.2.isOk || (i.passOf c drain pass).1.all VolumeChange.isFile
  | .crash (some (pass, stop)) =>
    i.drain.all fun drain =>
      ((i.passOf c drain pass).1.take stop).all VolumeChange.isFile ||
        ((i.passOf c drain pass).2.2.isOk && (i.passOf c drain pass).1.length ≤ stop)
  | .restart =>
    i.drain.isSome || i.own.all fun x => i.volume.disk.catalog.isSegmentMerged x.1 ||
      (Assoc.get i.volume.tables.shapes x.2).isSome || (Assoc.get i.restored.shapes x.2).isSome

/-! ## Runs -/

/-- What holds of an instance: its catalog is exact and its files are as they should be, and the
miner, while there is one, knows what it must, of the records that came in too. -/
structure Inv (i : Instance) : Prop where
  exact : i.volume.Exact
  fresh : i.volume.Fresh
  miner : ∀ drain, i.drain = some drain → drain.Shapely ∧ i.volume.Knows i.own drain ∧
    ∀ p ∈ i.pending, p.assigned = true → ∀ id ∈ p.record.templateId,
      (Assoc.get drain.shapes id).isSome = true

variable {c}

theorem inv_new : new.Inv where
  exact := Volume.exact_empty
  fresh := Volume.fresh_empty
  miner drain hdrain := by
    cases hdrain
    exact ⟨Drain.shapely_restore .default [], fun x hx => absurd hx List.not_mem_nil,
      fun p hp => absurd hp List.not_mem_nil⟩

/-- A log file that appears says nothing of templates. -/
theorem same_addFile (v : Volume) (dir : WalDir) (f : WalFile) :
    v.Same { v with disk := v.disk.addFile dir f } := ⟨rfl, rfl, rfl, rfl⟩

theorem Inv.process {i : Instance} (h : i.Inv) {drain : Drain} (hdrain : i.drain = some drain)
    (record : LogRecord) (now : ℕ) : (i.process drain record now).Inv := by
  obtain ⟨hshapely, hknows, hpending⟩ := h.miner drain hdrain
  obtain ⟨hnext, hextends, hassigned⟩ := hshapely.addLine record.body now
  have hknows' : i.volume.Knows i.own (drain.addLine record.body now).1 :=
    hknows.grows (.of_same ⟨rfl, rfl, rfl, rfl⟩) hextends
  unfold Instance.process
  cases hid : record.templateId with
  | some id =>
    refine ⟨h.exact, h.fresh, ?_⟩
    intro drain' hdrain'
    rw [hdrain, Option.some.injEq] at hdrain'
    subst hdrain'
    refine ⟨hshapely, hknows, ?_⟩
    intro p hp hmine
    rcases List.mem_append.mp hp with hold | hlast
    · exact hpending p hold hmine
    · rw [List.mem_singleton.mp hlast] at hmine
      cases hmine
  | none =>
    simp only
    generalize drain.addLine record.body now = mined at hnext hextends hassigned hknows' ⊢
    obtain ⟨drain₁, m⟩ := mined
    cases m with
    | none =>
      refine ⟨h.exact, h.fresh, ?_⟩
      intro drain' hdrain'
      cases hdrain'
      refine ⟨hnext, hknows', ?_⟩
      intro p hp hmine id hpid
      rcases List.mem_append.mp hp with hold | hlast
      · exact hextends.isSome (hpending p hold hmine id hpid)
      · rw [List.mem_singleton.mp hlast] at hmine
        cases hmine
    | some m =>
      refine ⟨h.exact, h.fresh, ?_⟩
      intro drain' hdrain'
      cases hdrain'
      refine ⟨hnext, hknows', ?_⟩
      intro p hp hmine id hpid
      rcases List.mem_append.mp hp with hold | hlast
      · exact hextends.isSome (hpending p hold hmine id hpid)
      · rw [List.mem_singleton.mp hlast] at hpid
        cases hpid
        exact hassigned m rfl

theorem Inv.segment {i : Instance} (h : i.Inv) (dir : WalDir) (s : Segment) :
    (i.step c (.segment dir s)).Inv := by
  simp only [step]
  split
  · refine ⟨h.exact.same (same_addFile _ _ _), h.fresh.same (same_addFile _ _ _), ?_⟩
    intro drain hdrain
    obtain ⟨hshapely, hknows, hpending⟩ := h.miner drain hdrain
    refine ⟨hshapely, ?_, hpending⟩
    intro x hx
    rcases List.mem_append.mp hx with hold | hnew
    · exact hknows x hold
    · obtain ⟨p, hp, hid⟩ := List.mem_filterMap.mp hnew
      obtain ⟨hp, hmine⟩ := List.mem_filter.mp hp
      rw [Bool.and_eq_true] at hmine
      obtain ⟨id, hpid, rfl⟩ := Option.map_eq_some_iff.mp hid
      exact .inr (.inr (hpending p hp hmine.1 id hpid))
  · exact h

/-- What a pass leaves, when it has been allowed. -/
theorem Inv.pass {i : Instance} (h : i.Inv) {drain : Drain} (hdrain : i.drain = some drain)
    (pass : MergePass) (hdone : (i.passOf c drain pass).2.2.isOk = true ∨
      (i.passOf c drain pass).1.all VolumeChange.isFile = true) :
    (i.volume.applyAll (i.passOf c drain pass).1).Exact ∧
      (i.volume.applyAll (i.passOf c drain pass).1).Fresh ∧
      (i.passOf c drain pass).2.1.Shapely ∧
      (i.volume.applyAll (i.passOf c drain pass).1).Knows i.own (i.passOf c drain pass).2.1 ∧
      drain.Extends (i.passOf c drain pass).2.1 := by
  obtain ⟨hshapely, hknows, -⟩ := h.miner drain hdrain
  exact mergeAllChanges_spec h.exact h.fresh hshapely hknows pass.dir pass.active pass.now hdone

theorem Inv.step {i : Instance} (h : i.Inv) {e : Happening} (hok : i.ok c e = true) :
    (i.step c e).Inv := by
  cases e with
  | process record now =>
    simp only [Instance.step]
    cases hdrain : i.drain with
    | none => exact h
    | some drain => exact h.process hdrain record now
  | segment dir s => exact h.segment dir s
  | headerless dir id bytes =>
    refine ⟨h.exact.same (same_addFile _ _ _), h.fresh.same (same_addFile _ _ _), ?_⟩
    exact h.miner
  | merge pass =>
    simp only [Instance.step]
    cases hdrain : i.drain with
    | none => exact h
    | some drain =>
      simp only [Instance.ok, hdrain, Option.all_some, Bool.or_eq_true] at hok
      obtain ⟨hexact, hfresh, hshapely, hknows, hextends⟩ := h.pass hdrain pass hok
      refine ⟨hexact, hfresh, ?_⟩
      intro drain' hdrain'
      cases hdrain'
      refine ⟨hshapely, hknows, ?_⟩
      intro p hp hmine id hid
      exact hextends.isSome ((h.miner drain hdrain).2.2 p hp hmine id hid)
  | crash during =>
    cases during with
    | none => exact ⟨h.exact, h.fresh, fun drain hdrain => by cases hdrain⟩
    | some during =>
      obtain ⟨pass, stop⟩ := during
      simp only [Instance.step]
      cases hdrain : i.drain with
      | none => exact h
      | some drain =>
        simp only [Instance.ok, hdrain, Option.all_some, Bool.or_eq_true, Bool.and_eq_true,
          decide_eq_true_eq] at hok
        rcases hok with hfiles | ⟨hdone, hlength⟩
        · have hsame := @Volume.same_applyAll i.volume _ hfiles
          exact ⟨h.exact.same hsame, h.fresh.same hsame, fun drain hdrain => by cases hdrain⟩
        · obtain ⟨hexact, hfresh, -⟩ := h.pass hdrain pass (.inl hdone)
          simp only
          rw [List.take_of_length_le hlength]
          exact ⟨hexact, hfresh, fun drain hdrain => by cases hdrain⟩
  | restart =>
    simp only [Instance.step]
    cases hdrain : i.drain with
    | some drain => exact h
    | none =>
      refine ⟨h.exact, h.fresh, ?_⟩
      intro drain' hdrain'
      cases hdrain'
      refine ⟨Drain.shapely_restore _ _, ?_, fun p hp => absurd hp List.not_mem_nil⟩
      simp only [Instance.ok, hdrain, Option.isSome_none, Bool.false_or, List.all_eq_true,
        Bool.or_eq_true, or_assoc] at hok
      exact hok

/-- When the rows with a template in a service of an index were observed, of all that merges
have committed. -/
def observedAt (i : Instance) (key : SightingKey) : List ℤ :=
  Tally.timesOf key (i.volume.log.flatMap fun e => sighted e.rows)

/-- **The dictionary is exact and complete** in every run in which no pass is cut short after it
has touched the catalog, and in which, whenever the process is started again, every id that was
assigned here to a record of a segment that is not merged is registered or is the hash of a
template that was saved. A row of the dictionary counts the rows that were committed and has
the first and the last time one of them was observed, in microseconds; there is one if there is
such a row and the text of the template is known. And every id that was assigned here to a row
that was committed has a text, which hashes to it. -/
theorem dictionary_exact (c : Codec) (happenings : List Happening)
    (hok : Runs.Meets (step c) (fun i e => i.ok c e = true) new happenings) :
    let i := Runs.run (step c) new happenings
    (∀ key, (i.observedAt key = [] ∨ Assoc.get i.volume.tables.shapes key.2.2.1 = none) →
      i.volume.dictionaryRow key = none) ∧
    (∀ key shape, i.observedAt key ≠ [] →
      Assoc.get i.volume.tables.shapes key.2.2.1 = some shape →
      ∃ r, i.volume.dictionaryRow key = some r ∧ r.text = shape.text ∧
        r.count = (i.observedAt key).length ∧
        (∃ first ∈ i.observedAt key, (∀ t ∈ i.observedAt key, first ≤ t) ∧
          r.firstSeenMicros = first / 1000) ∧
        ∃ last ∈ i.observedAt key, (∀ t ∈ i.observedAt key, t ≤ last) ∧
          r.lastSeenMicros = last / 1000) ∧
    ∀ e ∈ i.volume.log, ∀ id ∈ e.assigned, id ∈ e.ids →
      ∃ shape, Assoc.get i.volume.tables.shapes id = some shape ∧
        fingerprintOf shape.text = id := by
  intro i
  have hinv : i.Inv := hok.invariant (fun _ _ hi hstep => hi.step hstep) inv_new
  have hrow : ∀ key, i.volume.dictionaryRow key
      = (Tally.ofList (i.observedAt key)).bind (dictRow i.volume.tables.shapes key) := by
    intro key
    rw [hinv.fresh.dictionaryRow, hinv.exact.tally]
    rfl
  refine ⟨?_, ?_, ?_⟩
  · intro key hnone
    rw [hrow]
    rcases hnone with hempty | hunknown
    · rw [hempty]
      rfl
    · cases Tally.ofList (i.observedAt key) with
      | none => rfl
      | some tally => exact Option.map_eq_none_iff.mpr hunknown
  · intro key shape hne hshape
    rw [hrow]
    cases htally : Tally.ofList (i.observedAt key) with
    | none => exact absurd (Tally.ofList_eq_none.mp htally) hne
    | some tally =>
      obtain ⟨hcount, ⟨hfirst, hle⟩, hlast, hge⟩ := Tally.ofList_eq_some htally
      refine ⟨⟨key.1, key.2.1, key.2.2.1, key.2.2.2, shape.text, tally.1, tally.2.1 / 1000,
        tally.2.2 / 1000, shape.lineageId⟩, ?_, rfl, hcount, ⟨_, hfirst, hle, rfl⟩,
        ⟨_, hlast, hge, rfl⟩⟩
      rw [Option.bind_some]
      unfold dictRow
      simp only
      rw [hshape]
      rfl
  · intro e he id hid hrows
    obtain ⟨shape, hshape⟩ := Option.isSome_iff_exists.mp (hinv.exact.named e he id hid hrows)
    exact ⟨shape, hshape, hinv.exact.hashed id shape hshape⟩

/-! ## Examples -/

theorem length_zeroBytes : (List.replicate 16 (0 : UInt8)).length = 16 := List.length_replicate

/-- A record of one line. -/
def exampleLine (body : String) : LogRecord :=
  .new ⟨List.replicate 16 0, length_zeroBytes⟩ 1 .INFO body.toList

/-- The segment it is written to, with the id it got. -/
def exampleSegment (id : ℕ) (x : UInt8) (body : String) : Segment where
  id := id
  uuid := .nowV7 1 (List.replicate 9 0 ++ [x]) (length_zeros_concat x)
  batches := [[{ exampleLine body with templateId := some (fingerprintOf body.toList) }]]
  tail := []

def examplePass : MergePass := ⟨Agent.plainSettings.tenancy, .main, none, 0⟩

def exampleRun : List Happening → Instance := Runs.run (step Postcard.codec) new

/-- A segment that is merged, and one that is written with the same template and merged by the
next process. -/
def savedThenRestarted : List Happening :=
  [.process (exampleLine "a") 0, .segment .main (exampleSegment 1 0 "a"), .merge examplePass,
    .process (exampleLine "a") 0, .segment .main (exampleSegment 2 1 "a"), .crash none, .restart,
    .merge examplePass]

theorem dictionary_exact_restarted :
    let i := Runs.run (step Postcard.codec) new savedThenRestarted
    ∀ e ∈ i.volume.log, ∀ id ∈ e.assigned, id ∈ e.ids →
      ∃ shape, Assoc.get i.volume.tables.shapes id = some shape ∧
        fingerprintOf shape.text = id := by
  have hok : Runs.Meets (step Postcard.codec) (fun i e => i.ok Postcard.codec e = true) new
      savedThenRestarted := by decide +kernel
  have hexact := dictionary_exact Postcard.codec savedThenRestarted hok
  exact hexact.2.2

/-- A line that comes in, is written to the log, and is merged by the next process: its row
carries an id that was assigned here, and nobody knows its text. -/
theorem text_lost :
    let i := exampleRun [.process (exampleLine "a") 0, .segment .main (exampleSegment 1 0 "a"),
      .crash none, .restart, .merge examplePass]
    ∃ e ∈ i.volume.log, ∃ id ∈ e.assigned, id ∈ e.ids ∧
      (Assoc.get i.volume.tables.shapes id).isNone = true := by
  intro i
  have hany : (i.volume.log.any fun e => e.assigned.any fun id =>
      e.ids.contains id && (Assoc.get i.volume.tables.shapes id).isNone) = true := by
    decide +kernel
  obtain ⟨e, he, hid⟩ := List.any_eq_true.mp hany
  obtain ⟨id, hid, hrow⟩ := List.any_eq_true.mp hid
  rw [Bool.and_eq_true, List.contains_iff_mem] at hrow
  exact ⟨e, he, id, hid, hrow⟩

/-- A pass that ends just after its commit: the next one has nothing to merge, and the files
still count one row where two are committed. -/
theorem dictionary_stale :
    let i := exampleRun [.process (exampleLine "a") 0, .segment .main (exampleSegment 1 0 "a"),
      .merge examplePass, .process (exampleLine "a") 0, .segment .main (exampleSegment 2 1 "a"),
      .crash (some (examplePass, 4)), .restart, .merge examplePass]
    let key := ("default".toList, "default".toList, fingerprintOf ['a'], none)
    (i.volume.dictionaryRow key).map DictRow.count = some 1 ∧ (i.observedAt key).length = 2 := by
  decide +kernel

end Instance

end LogLess.Store
