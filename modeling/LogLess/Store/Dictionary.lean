import LogLess.Store.MergeRuns
import LogLess.Store.Sightings

/-!
# The template dictionary

Rows carry the hash of their template's text. What a hash stands for is registered in the
catalog just before the commit of a segment, as far as the miner knows it; the templates of the
miner are saved just after. When a pass has merged a segment, or a file has gone missing, the
dictionary is written to the store: one file for each tenant and index, with a row for each
sighting whose text is known.

`mergeAllChanges` is `merge_all` with all of this. What it does to the log, the files and the
commits is what `mergeAll` does (`effects_mergeAllChanges`). The shape history is left out.
-/

namespace LogLess.Store

open Wal Frames

/-! ## The tables -/

/-- A row of `templates`. The tokens are joined by tabs. -/
structure TemplateRow where
  text : Text
  tokens : Text
  count : ℕ
  firstSeen : ℕ
  lastSeen : ℕ
  lineageId : ℕ
deriving DecidableEq

structure ShapeRow where
  templateId : ℕ
  lineageId : ℕ
  text : Text

structure TemplateTables where
  /-- By the counter of the miner. -/
  templates : List (ℕ × TemplateRow)
  /-- By content hash. -/
  shapes : List (ℕ × Shape)
  templateHashCollisions : ℕ

namespace TemplateTables

def empty : TemplateTables := ⟨[], [], 0⟩

variable (t : TemplateTables)

/-- One row of `register_shapes`: the first text registered for a hash is kept. -/
def registerShape (s : ShapeRow) : TemplateTables :=
  match Assoc.get t.shapes s.templateId with
  | none => { t with shapes := Assoc.insert t.shapes s.templateId ⟨s.lineageId, s.text⟩ }
  | some shape =>
    if shape.text ≠ s.text then { t with templateHashCollisions := t.templateHashCollisions + 1 }
    else t

def registerShapes (shapes : List ShapeRow) : TemplateTables := shapes.foldl registerShape t

/-- One row of `save_templates`: a lineage and a first time are written once. -/
def saveTemplate (template : Template) : TemplateTables :=
  let old := Assoc.get t.templates template.id
  let row : TemplateRow :=
    { text := template.text
      tokens := List.intercalate ['\t'] template.tokens
      count := template.count
      firstSeen := (old.map TemplateRow.firstSeen).getD template.firstSeenUnixSecs
      lastSeen := template.lastSeenUnixSecs
      lineageId := (old.map TemplateRow.lineageId).getD template.lineageId }
  { t with templates := Assoc.insert t.templates template.id row }

def saveTemplates (templates : List Template) : TemplateTables := templates.foldl saveTemplate t

/-- `load_templates`: in the order of their ids. -/
def loadTemplates : List Template :=
  (Lists.sortByKey Prod.fst t.templates).map fun (id, row) =>
    ⟨id, Text.splitAt '\t' row.tokens, row.count, row.firstSeen, row.lastSeen, row.lineageId⟩

end TemplateTables

/-! ## What is on disk -/

/-- A row of the dictionary. Its tenant and index choose the file. -/
structure DictRow where
  tenant : Text
  index : Text
  templateId : ℕ
  service : Option Text
  text : Text
  count : ℕ
  firstSeenMicros : ℤ
  lastSeenMicros : ℤ
  lineageId : ℕ
deriving DecidableEq

/-- The file a row is in. -/
def DictRow.scope (r : DictRow) : Text × Text := (r.tenant, r.index)

/-- The row of a sighting, if its text is known. -/
def dictRow (shapes : List (ℕ × Shape)) (key : SightingKey) (tally : ℕ × ℤ × ℤ) : Option DictRow :=
  let (tenant, index, id, service) := key
  let (rows, first, last) := tally
  (Assoc.get shapes id).map fun shape =>
    ⟨tenant, index, id, service, shape.text, rows, first / 1000, last / 1000, shape.lineageId⟩

/-- What a commit committed: the rows of a segment, and the ids that were assigned here to its
records, when they came in or when they were merged. -/
structure Committed where
  uuid : Uuid
  rows : List (PartitionKey × List LogRecord)
  assigned : List ℕ

/-- The log directories, the store, the catalog, and the files of the dictionary. -/
structure Volume where
  disk : Disk
  tables : TemplateTables
  dictionary : List ((Text × Text) × List DictRow)
  /-- Every commit there was, for the statements only. -/
  log : List Committed

inductive VolumeChange where
  | truncate (dir : WalDir) (id : ℕ) (bytes : Bytes)
  | write (path : Path) (rows : List LogRecord)
  | remove (dir : WalDir) (id : ℕ)
  | registerShapes (shapes : List ShapeRow)
  | commit (id : ℕ) (files : List FileEntry) (sightings : List TemplateSighting) (now : ℕ)
      (entry : Committed)
  | saveTemplates (templates : List Template)
  | writeDictionary (scope : Text × Text) (rows : List DictRow)

/-- A change as an effect on the log, the store or the commits. -/
def VolumeChange.effect? : VolumeChange → Option Effect
  | .truncate dir id bytes => some (.truncate dir id bytes)
  | .write path rows => some (.write path rows)
  | .remove dir id => some (.remove dir id)
  | .commit id files sightings now entry => some (.commit id entry.uuid files sightings now)
  | .registerShapes _ | .saveTemplates _ | .writeDictionary .. => none

/-- Neither the catalog nor the dictionary is touched. -/
def VolumeChange.isFile : VolumeChange → Bool
  | .truncate .. | .write .. | .remove .. => true
  | .registerShapes _ | .commit .. | .saveTemplates _ | .writeDictionary .. => false

namespace Volume

def empty : Volume := ⟨⟨fun _ => [], [], .empty⟩, .empty, [], []⟩

variable (v : Volume)

def apply : VolumeChange → Volume
  | .truncate dir id bytes => { v with disk := v.disk.apply (.truncate dir id bytes) }
  | .write path rows => { v with disk := v.disk.apply (.write path rows) }
  | .remove dir id => { v with disk := v.disk.apply (.remove dir id) }
  | .registerShapes shapes => { v with tables := v.tables.registerShapes shapes }
  | .commit id files sightings now entry =>
    { v with
      disk := v.disk.apply (.commit id entry.uuid files sightings now)
      log := v.log ++ [entry] }
  | .saveTemplates templates => { v with tables := v.tables.saveTemplates templates }
  | .writeDictionary scope rows => { v with dictionary := Assoc.insert v.dictionary scope rows }

def applyAll (changes : List VolumeChange) : Volume := changes.foldl apply v

/-- `rows_from_catalog`: the dictionary as it should be written now. The order of its rows is
left out. -/
def rowsFromCatalog : List DictRow :=
  v.disk.catalog.templateServices.filterMap fun e => dictRow v.tables.shapes e.1 e.2

/-- `dictionary_scopes`. -/
def dictionaryScopes : List (Text × Text) :=
  (v.rowsFromCatalog.map DictRow.scope).dedup.insertionSort fun a b =>
    ((compare a.1 b.1).then (compare a.2 b.2)).isLE = true

/-- `missing`: there is no file for some tenant and index. -/
def missing : Bool := v.dictionaryScopes.any fun scope => (Assoc.get v.dictionary scope).isNone

/-- `export`: one file for each tenant and index. -/
def exported : List VolumeChange :=
  v.dictionaryScopes.map fun scope =>
    .writeDictionary scope (v.rowsFromCatalog.filter fun r => r.scope = scope)

/-- The row of a template in a service of an index, in the files of the dictionary. -/
def dictionaryRow (key : SightingKey) : Option DictRow :=
  ((Assoc.get v.dictionary (key.1, key.2.1)).getD []).find? fun r =>
    r.templateId = key.2.2.1 ∧ r.service = key.2.2.2

end Volume

/-! ## One segment -/

/-- `mine`, keeping the ids it assigned. -/
def mineLogged : Miner (Drain × List ℕ) := fun (drain, log) line now =>
  let (drain, m) := mine drain line now
  ((drain, log ++ (m.map Mined.shapeId).toList), m)

/-- What the hashes that some rows carry stand for, as far as the miner knows. -/
def shapesOf (drain : Drain) (rows : List (PartitionKey × List LogRecord)) : List ShapeRow :=
  ((sightingsOf rows).map TemplateSighting.templateId).dedup.filterMap fun id =>
    (Assoc.get drain.shapes id).map fun s => ⟨id, s.lineageId, s.text⟩

def segmentChanges (dir : WalDir) (now segmentId : ℕ) (replay : Replay) (drain : Drain)
    (entry : Committed) : List VolumeChange :=
  (if replay.outcome.truncatedTo.isSome then [.truncate dir segmentId replay.bytes] else [])
    ++ (entry.rows.map fun x => .write (filePath x.1 segmentId entry.uuid) x.2)
    ++ [.registerShapes (shapesOf drain entry.rows),
      .commit segmentId (entriesOf segmentId entry.uuid entry.rows) (sightingsOf entry.rows) now
        entry,
      .saveTemplates drain.templates, .remove dir segmentId]

section

variable (c : Codec) (tenancy : Tenancy) (own : List (Uuid × ℕ))

/-- The body of the loop of `merge_all`. `own` has the ids that were assigned here to the records
of a segment when they came in. -/
def mergeSegmentChanges (dir : WalDir) (now : ℕ) (catalog : Catalog) (state : Drain × MergeReport)
    (f : WalFile) : Except WalError (List VolumeChange × Drain × MergeReport) :=
  let (drain, report) := state
  if isIncompleteHeader f.bytes then
    .ok ([.remove dir f.id], drain,
      { report with segmentsSkipped := report.segmentsSkipped + 1 })
  else
    match segmentUuid f.bytes with
    | .error e => .error e
    | .ok uuid =>
      if catalog.isSegmentMerged uuid then
        .ok ([.remove dir f.id], drain, { report with
          segmentsSkipped := report.segmentsSkipped + 1
          walBytesFreed := report.walBytesFreed + f.bytes.length })
      else
        match replaySegment c true f.bytes with
        | .error e => .error e
        | .ok replay =>
          let damaged := replay.outcome.truncatedTo.isSome
          let report := { report with truncated := report.truncated + if damaged then 1 else 0 }
          let (((drain, mined), report), rows) :=
            segmentRows tenancy mineLogged now ((drain, []), report) replay.visited
          let here := (own.filter fun x => x.1 = uuid).map Prod.snd
          .ok (segmentChanges dir now f.id replay drain ⟨uuid, rows, mined ++ here⟩, drain,
            { report with
              filesWritten := report.filesWritten + rows.length
              segmentsMerged := report.segmentsMerged + 1
              walBytesFreed := report.walBytesFreed + f.bytes.length })

/-! ## One pass -/

/-- The loop of `merge_all`: all changes in order, the miner after them, and how it ends. -/
def mergeLoopChanges (dir : WalDir) (now : ℕ) :
    List WalFile → Volume → Drain × MergeReport →
      List VolumeChange × Drain × Except WalError MergeReport
  | [], _, state => ([], state.1, .ok state.2)
  | f :: fs, v, state =>
    match mergeSegmentChanges c tenancy own dir now v.disk.catalog state f with
    | .error e => ([], state.1, .error e)
    | .ok (changes, state) =>
      let (rest, result) := mergeLoopChanges dir now fs (v.applyAll changes) state
      (changes ++ rest, result)

/-- `merge_all`: what a pass does, the miner after it, and how it ends. -/
def mergeAllChanges (dir : WalDir) (active : Option ℕ) (now : ℕ) (v : Volume) (drain : Drain) :
    List VolumeChange × Drain × Except WalError MergeReport :=
  let files := (listSegments (v.disk.wal dir)).filter fun f => !skipped active f.id
  let (changes, drain, result) := mergeLoopChanges c tenancy own dir now files v (drain, .zero)
  match result with
  | .error e => (changes, drain, .error e)
  | .ok report =>
    let merged := v.applyAll changes
    let rewrite := 0 < report.segmentsMerged || merged.missing
    (changes ++ if rewrite then merged.exported else [], drain, .ok report)

end

/-! ## The same pass as `mergeAll` -/

section

variable {δ ε : Type} {addLine : Miner δ} {addLine' : Miner ε} {f : ε → δ}

/-- One miner does what another does, and keeps more. -/
def Simulates (addLine' : Miner ε) (f : ε → δ) (addLine : Miner δ) : Prop :=
  ∀ state line now, addLine (f state) line now
    = (f (addLine' state line now).1, (addLine' state line now).2)

theorem assignTemplate_simulates (h : Simulates addLine' f addLine) (now : ℕ)
    (state : ε × MergeReport) (r : LogRecord) :
    assignTemplate addLine now (f state.1, state.2) r
      = ((f (assignTemplate addLine' now state r).1.1, (assignTemplate addLine' now state r).1.2),
        (assignTemplate addLine' now state r).2) := by
  unfold assignTemplate
  simp only
  split
  · rfl
  · rw [h]
    generalize addLine' state.1 r.body now = mined
    obtain ⟨drain, m⟩ := mined
    cases m <;> rfl

theorem assignTemplates_simulates (h : Simulates addLine' f addLine) (now : ℕ)
    (state : ε × MergeReport) (rs : List LogRecord) :
    assignTemplates addLine now (f state.1, state.2) rs
      = ((f (assignTemplates addLine' now state rs).1.1,
          (assignTemplates addLine' now state rs).1.2),
        (assignTemplates addLine' now state rs).2) := by
  induction rs generalizing state with
  | nil => rfl
  | cons r rs ih =>
    simp only [assignTemplates, assignTemplate_simulates h, ih]

theorem assignPartitions_simulates (h : Simulates addLine' f addLine) (now : ℕ)
    (state : ε × MergeReport) (groups : List (PartitionKey × List LogRecord)) :
    assignPartitions addLine now (f state.1, state.2) groups
      = ((f (assignPartitions addLine' now state groups).1.1,
          (assignPartitions addLine' now state groups).1.2),
        (assignPartitions addLine' now state groups).2) := by
  induction groups generalizing state with
  | nil => rfl
  | cons g groups ih =>
    simp only [assignPartitions, assignTemplates_simulates h, ih]

theorem segmentRows_simulates (h : Simulates addLine' f addLine) (tenancy : Tenancy) (now : ℕ)
    (state : ε) (report : MergeReport) (batches : List Batch) :
    segmentRows tenancy addLine now (f state, report) batches
      = ((f (segmentRows tenancy addLine' now (state, report) batches).1.1,
          (segmentRows tenancy addLine' now (state, report) batches).1.2),
        (segmentRows tenancy addLine' now (state, report) batches).2) :=
  assignPartitions_simulates h now (state, _) _

theorem simulates_mineLogged : Simulates mineLogged Prod.fst mine := fun _ _ _ => rfl

end

theorem effects_segmentChanges (dir : WalDir) (now id : ℕ) (replay : Replay) (drain : Drain)
    (entry : Committed) :
    (segmentChanges dir now id replay drain entry).filterMap VolumeChange.effect?
      = segmentEffects dir now id entry.uuid replay entry.rows := by
  unfold segmentChanges segmentEffects
  rw [List.filterMap_append, List.filterMap_append, List.filterMap_map]
  congr 2
  · split <;> rfl
  · rw [← List.filterMap_eq_map]
    rfl

theorem disk_apply (v : Volume) (change : VolumeChange) :
    (v.apply change).disk = (change.effect?.map v.disk.apply).getD v.disk := by
  cases change <;> rfl

theorem disk_applyAll (v : Volume) (changes : List VolumeChange) :
    (v.applyAll changes).disk = v.disk.applyAll (changes.filterMap VolumeChange.effect?) := by
  induction changes generalizing v with
  | nil => rfl
  | cons change changes ih =>
    rw [Volume.applyAll, List.foldl_cons, ← Volume.applyAll, ih, disk_apply]
    cases heffect : change.effect? with
    | none => rw [List.filterMap_cons_none heffect]; rfl
    | some effect => rw [List.filterMap_cons_some heffect]; rfl

section

variable (c : Codec) (tenancy : Tenancy) (own : List (Uuid × ℕ)) (dir : WalDir) (now : ℕ)

theorem effects_mergeSegmentChanges (catalog : Catalog) (state : Drain × MergeReport)
    (f : WalFile) :
    (mergeSegmentChanges c tenancy own dir now catalog state f).map
        (fun x => (x.1.filterMap VolumeChange.effect?, x.2))
      = mergeSegment c tenancy mine dir now catalog state f := by
  unfold mergeSegmentChanges mergeSegment
  by_cases hheader : isIncompleteHeader f.bytes = true
  · simp only [hheader, if_true]
    rfl
  · simp only [hheader, if_false, Bool.false_eq_true]
    cases segmentUuid f.bytes with
    | error e => rfl
    | ok uuid =>
      by_cases hmerged : catalog.isSegmentMerged uuid = true
      · simp only [hmerged, if_true]
        rfl
      · simp only [hmerged, if_false, Bool.false_eq_true]
        cases replaySegment c true f.bytes with
        | error e => rfl
        | ok replay =>
          have hrows := fun report => segmentRows_simulates simulates_mineLogged tenancy now
            (state.1, []) report replay.visited
          simp only [hrows, Except.map, effects_segmentChanges]

theorem effects_mergeLoopChanges (files : List WalFile) (v : Volume)
    (state : Drain × MergeReport) :
    (mergeLoopChanges c tenancy own dir now files v state).1.filterMap VolumeChange.effect?
        = (mergeLoop c tenancy mine dir now files v.disk state).1 ∧
      (mergeLoopChanges c tenancy own dir now files v state).2.2
        = (mergeLoop c tenancy mine dir now files v.disk state).2.map Prod.snd := by
  induction files generalizing v state with
  | nil => exact ⟨rfl, rfl⟩
  | cons f files ih =>
    have hsegment := effects_mergeSegmentChanges c tenancy own dir now v.disk.catalog state f
    unfold mergeLoopChanges mergeLoop
    rw [← hsegment]
    cases mergeSegmentChanges c tenancy own dir now v.disk.catalog state f with
    | error e => exact ⟨rfl, rfl⟩
    | ok x =>
      obtain ⟨changes, state⟩ := x
      obtain ⟨heffects, hresult⟩ := ih (v.applyAll changes) state
      rw [disk_applyAll] at heffects hresult
      refine ⟨?_, hresult⟩
      show (changes ++ (mergeLoopChanges c tenancy own dir now files (v.applyAll changes)
        state).1).filterMap VolumeChange.effect? = changes.filterMap VolumeChange.effect? ++ _
      rw [List.filterMap_append, heffects]

/-- **The pass is that of `mergeAll`**, with the changes to the dictionary besides. -/
theorem effects_mergeAllChanges (active : Option ℕ) (v : Volume) (drain : Drain) :
    (mergeAllChanges c tenancy own dir active now v drain).1.filterMap VolumeChange.effect?
        = (mergeAll c tenancy mine dir active now v.disk drain).1 ∧
      (mergeAllChanges c tenancy own dir active now v drain).2.2
        = (mergeAll c tenancy mine dir active now v.disk drain).2.map Prod.snd := by
  have hloop := effects_mergeLoopChanges c tenancy own dir now
    ((listSegments (v.disk.wal dir)).filter fun f => !skipped active f.id) v (drain, .zero)
  have hexported : ∀ v : Volume, v.exported.filterMap VolumeChange.effect? = [] := by
    intro v
    rw [Volume.exported, List.filterMap_map]
    exact List.filterMap_eq_nil_iff.mpr fun _ _ => rfl
  unfold mergeAllChanges mergeAll
  rw [← hloop.1, ← hloop.2]
  simp only
  split
  · next e heq => exact ⟨rfl, heq.symm⟩
  · next report heq =>
    refine ⟨?_, heq.symm⟩
    rw [List.filterMap_append]
    split
    · rw [hexported, List.append_nil]
    · exact List.append_nil _

end

end LogLess.Store
