import LogLess.Drain.Miner
import LogLess.Store.Catalog
import LogLess.Wal.Recovery

/-!
# Merging segments into the store

`merge_all` takes the closed segments of a log directory in the order of their ids. For
each it writes one file for every partition its records are in, commits the catalog, and
removes the segment. What a run does to the disk is a list of effects; a crash leaves a
prefix of it done.

The template miner, which assigns an id to a record that arrives without one, is a parameter;
`mine` is the one the source calls. Typed columns, the template dictionary and the sizes of files are left out.
-/

namespace LogLess.Store

open Wal Frames

/-! ## Records to rows -/

/-- The order of `sort_records`. -/
def recordLe (a b : LogRecord) : Bool :=
  ((compare a.service b.service).then <|
    (compare (a.traceId.map Subtype.val) (b.traceId.map Subtype.val)).then <|
    (compare a.timestampUnixNano b.timestampUnixNano).then <|
    compare a.eventId.bytes b.eventId.bytes).isLE

def sortRecords (records : List LogRecord) : List LogRecord :=
  records.insertionSort fun a b => recordLe a b = true

/-- A record without the attributes that name its index and its tenant, which are
directories of the store. -/
def withoutRouting (r : LogRecord) : LogRecord :=
  { r with
    attributes := (r.attributes.eraseP fun a => a.key == attrIndex).eraseP
      fun a => a.key == attrTenant }

/-- The string an attribute that is looked for holds. -/
def strAttr (attributes : List Attr) (key : Text) : Option Text :=
  match attributes.find? fun a => a.key == key with
  | some ⟨_, .str s⟩ => some s
  | _ => none

/-- The partition of a record, and whether it was rerouted to get there. -/
def partitionOf (tenancy : Tenancy) (r : LogRecord) : PartitionKey × Bool :=
  let asked := strAttr r.attributes attrIndex
  let rest := r.attributes.eraseP fun a => a.key == attrIndex
  let tenant :=
    match strAttr rest attrTenant with
    | some t => if validIdent t then t else tenancy.tenant
    | none => tenancy.tenant
  let (index, rerouted) :=
    match tenancy.routeIn tenant asked with
    | .known index => (index, false)
    | .defaulted index => (index, true)
    | .refused => ((tenancy.defaultIndexOf tenant).getD defaultIndex, true)
  let buckets := (tenancy.buckets tenant index).getD tenancy.defaultBuckets
  -- the buckets of a checked tenancy are not empty
  let bucket := ((buckets.bucketFor r.severity).map LevelBucket.name).getD []
  (⟨tenant, index, r.timestampUnixNano / nanosPerHour, bucket, tenancy.node⟩, rerouted)

/-- A record added to the group of its key. -/
def addToGroup (groups : List (PartitionKey × List LogRecord)) (key : PartitionKey)
    (r : LogRecord) : List (PartitionKey × List LogRecord) :=
  match groups with
  | [] => [(key, [r])]
  | (k, rs) :: rest =>
    if k = key then (k, rs ++ [r]) :: rest else (k, rs) :: addToGroup rest key r

/-- The records of a segment by partition, in the order of the keys. -/
def partitions (tenancy : Tenancy) (records : List LogRecord) :
    List (PartitionKey × List LogRecord) :=
  let groups := records.foldl
    (fun groups r => addToGroup groups (partitionOf tenancy r).1 (withoutRouting r)) []
  groups.insertionSort fun a b => PartitionKey.le a.1 b.1 = true

/-! ## Templates -/

/-- What the miner says of a line: the id its rows carry, and whether it is new. -/
structure Mined where
  shapeId : ℕ
  isNew : Bool

/-- A template miner with states `δ`. -/
abbrev Miner (δ : Type) := δ → Text → ℕ → δ × Option Mined

/-- `Drain` as a miner: rows carry the hash of the template. -/
def mine : Miner Drain := fun drain line now =>
  let (drain, m) := drain.addLine line now
  (drain, m.map fun m => ⟨m.shapeId, m.isNew⟩)

structure MergeReport where
  segmentsMerged : ℕ
  segmentsSkipped : ℕ
  records : ℕ
  filesWritten : ℕ
  walBytesFreed : ℕ
  truncated : ℕ
  templated : ℕ
  untemplated : ℕ
  newTemplates : ℕ
  indexRerouted : ℕ

def MergeReport.zero : MergeReport := ⟨0, 0, 0, 0, 0, 0, 0, 0, 0, 0⟩

section

variable {δ : Type} (addLine : Miner δ)

/-- A template id for one record that has none. -/
def assignTemplate (now : ℕ) (state : δ × MergeReport) (r : LogRecord) :
    (δ × MergeReport) × LogRecord :=
  let (drain, report) := state
  if r.templateId.isSome then ((drain, { report with templated := report.templated + 1 }), r)
  else
    match addLine drain r.body now with
    | (drain, some m) =>
      ((drain, { report with
        templated := report.templated + 1
        newTemplates := report.newTemplates + if m.isNew then 1 else 0 }),
        { r with templateId := some m.shapeId })
    | (drain, none) => ((drain, { report with untemplated := report.untemplated + 1 }), r)

def assignTemplates (now : ℕ) : δ × MergeReport → List LogRecord →
    (δ × MergeReport) × List LogRecord
  | state, [] => (state, [])
  | state, r :: rs =>
    let (state, r) := assignTemplate addLine now state r
    let (state, rs) := assignTemplates now state rs
    (state, r :: rs)

/-- Each partition's rows, templated and sorted. -/
def assignPartitions (now : ℕ) : δ × MergeReport → List (PartitionKey × List LogRecord) →
    (δ × MergeReport) × List (PartitionKey × List LogRecord)
  | state, [] => (state, [])
  | state, (key, records) :: rest =>
    let (state, records) := assignTemplates addLine now state records
    let (state, rest) := assignPartitions now state rest
    (state, (key, sortRecords records) :: rest)

end

/-- The sightings of one segment, one row for each template and service of an index. -/
def sightingsOf (rows : List (PartitionKey × List LogRecord)) : List TemplateSighting :=
  let seen := rows.flatMap fun (key, records) => records.filterMap fun r =>
    r.templateId.map fun id => ((key.tenant, key.index, id, r.service), toI64 r.observedUnixNano)
  let table := seen.foldl
    (fun (table : List (SightingKey × ℕ × ℤ × ℤ)) (entry : SightingKey × ℤ) =>
      let (at_, t) := entry
      match Assoc.get table at_ with
      | some (n, lo, hi) => Assoc.insert table at_ (n + 1, min lo t, max hi t)
      | none => Assoc.insert table at_ (1, t, t)) []
  table.map fun ((tenant, index, id, service), n, lo, hi) =>
    ⟨tenant, index, id, service, n, lo, hi⟩

/-! ## Effects on the disk -/

/-- The two log directories of an instance. -/
inductive WalDir where
  | main
  | late
deriving DecidableEq

/-- What a run does to the disk, one durable change at a time. -/
inductive Effect where
  /-- A damaged tail cut off. -/
  | truncate (dir : WalDir) (id : ℕ) (bytes : Bytes)
  /-- A file written beside its place and renamed over it. -/
  | write (path : Path) (rows : List LogRecord)
  | commit (id : ℕ) (uuid : Uuid) (files : List FileEntry) (sightings : List TemplateSighting)
      (now : ℕ)
  | remove (dir : WalDir) (id : ℕ)

structure Disk where
  wal : WalDir → List WalFile
  store : List (Path × List LogRecord)
  catalog : Catalog

def Disk.apply (d : Disk) : Effect → Disk
  | .truncate dir id bytes =>
    let files := (d.wal dir).map fun f => if f.id = id then ⟨f.id, bytes⟩ else f
    { d with wal := Function.update d.wal dir files }
  | .write path rows => { d with store := Assoc.insert d.store path rows }
  | .commit id uuid files sightings now =>
    { d with catalog := d.catalog.commitMerge id uuid files sightings now }
  | .remove dir id =>
    let files := (d.wal dir).filter fun f => f.id != id
    { d with wal := Function.update d.wal dir files }

def Disk.applyAll (d : Disk) (effects : List Effect) : Disk := effects.foldl Disk.apply d

/-! ## One segment -/

section

variable (c : Codec) (tenancy : Tenancy) {δ : Type} (addLine : Miner δ)

/-- The rows a segment's records become, with the miner and the report after them. -/
def segmentRows (now : ℕ) (state : δ × MergeReport) (batches : List Batch) :
    (δ × MergeReport) × List (PartitionKey × List LogRecord) :=
  let records := batches.flatten
  let (drain, report) := state
  let rerouted := (records.filter fun r => (partitionOf tenancy r).2).length
  let report := { report with
    indexRerouted := report.indexRerouted + rerouted
    records := report.records + records.length }
  assignPartitions addLine now (drain, report) (partitions tenancy records)

/-- The catalog rows of a segment's files. -/
def entriesOf (segmentId : ℕ) (uuid : Uuid) (rows : List (PartitionKey × List LogRecord)) :
    List FileEntry :=
  rows.map fun x => ⟨filePath x.1 segmentId uuid, x.1, fileStats x.2⟩

/-- The changes made for a segment that is merged: its tail cut off if it is damaged, one
file for each partition, the commit, and the segment removed. -/
def segmentEffects (dir : WalDir) (now segmentId : ℕ) (uuid : Uuid) (replay : Replay)
    (rows : List (PartitionKey × List LogRecord)) : List Effect :=
  (if replay.outcome.truncatedTo.isSome then [.truncate dir segmentId replay.bytes] else [])
    ++ (rows.map fun x => .write (filePath x.1 segmentId uuid) x.2)
    ++ [.commit segmentId uuid (entriesOf segmentId uuid rows) (sightingsOf rows) now,
      .remove dir segmentId]

/-- The body of the loop of `merge_all`: what it does for one segment. -/
def mergeSegment (dir : WalDir) (now : ℕ) (catalog : Catalog) (state : δ × MergeReport)
    (f : WalFile) : Except WalError (List Effect × δ × MergeReport) :=
  let (drain, report) := state
  if isIncompleteHeader f.bytes then
    .ok ([.remove dir f.id], drain,
      { report with segmentsSkipped := report.segmentsSkipped + 1 })
  else
    match segmentUuid f.bytes with
    | .error e => .error e
    | .ok uuid =>
      if catalog.isSegmentMerged uuid then
        .ok ([.remove dir f.id], drain, { report with
          segmentsSkipped := report.segmentsSkipped + 1
          walBytesFreed := report.walBytesFreed + f.bytes.length })
      else
        match replaySegment c true f.bytes with
        | .error e => .error e
        | .ok replay =>
          let damaged := replay.outcome.truncatedTo.isSome
          let report := { report with truncated := report.truncated + if damaged then 1 else 0 }
          let ((drain, report), rows) :=
            segmentRows tenancy addLine now (drain, report) replay.visited
          .ok (segmentEffects dir now f.id uuid replay rows, drain, { report with
            filesWritten := report.filesWritten + rows.length
            segmentsMerged := report.segmentsMerged + 1
            walBytesFreed := report.walBytesFreed + f.bytes.length })

/-! ## One run -/

/-- The loop of `merge_all`: all effects in order, up to an error or the end. -/
def mergeLoop (dir : WalDir) (now : ℕ) :
    List WalFile → Disk → δ × MergeReport → List Effect × Except WalError (δ × MergeReport)
  | [], _, state => ([], .ok state)
  | f :: fs, d, state =>
    match mergeSegment c tenancy addLine dir now d.catalog state f with
    | .error e => ([], .error e)
    | .ok (effects, state) =>
      let (rest, result) := mergeLoop dir now fs (d.applyAll effects) state
      (effects ++ rest, result)

/-- A segment a run leaves alone: the active one and every newer one. -/
def skipped (active : Option ℕ) (id : ℕ) : Bool := active.any fun a => a ≤ id

/-- `merge_all`: what a run does to the disk, and how it ends. -/
def mergeAll (dir : WalDir) (active : Option ℕ) (now : ℕ) (d : Disk) (drain : δ) :
    List Effect × Except WalError (δ × MergeReport) :=
  mergeLoop c tenancy addLine dir now
    ((listSegments (d.wal dir)).filter fun f => !skipped active f.id) d (drain, .zero)

end

/-! ## Rows are the records -/

/-- A row without its template id, which depends on the miner. -/
def bare (r : LogRecord) : LogRecord := { r with templateId := none }

/-- All rows of some partitions, without their template ids. -/
def bareRows (groups : List (PartitionKey × List LogRecord)) : List LogRecord :=
  (groups.flatMap Prod.snd).map bare

theorem perm_sortRecords (records : List LogRecord) : (sortRecords records).Perm records :=
  List.perm_insertionSort _ records

theorem mem_keys_addToGroup {groups : List (PartitionKey × List LogRecord)} {key k : PartitionKey}
    {r : LogRecord} :
    k ∈ (addToGroup groups key r).map Prod.fst ↔ k = key ∨ k ∈ groups.map Prod.fst := by
  induction groups with
  | nil => simp [addToGroup]
  | cons g groups ih =>
    obtain ⟨k', rs⟩ := g
    rw [addToGroup]
    split
    · next h =>
      simp only [List.map_cons, List.mem_cons, h]
      tauto
    · next h =>
      simp only [List.map_cons, List.mem_cons, ih]
      tauto

theorem nodup_keys_addToGroup {groups : List (PartitionKey × List LogRecord)} {key : PartitionKey}
    {r : LogRecord} (h : (groups.map Prod.fst).Nodup) :
    ((addToGroup groups key r).map Prod.fst).Nodup := by
  induction groups with
  | nil => simp [addToGroup]
  | cons g groups ih =>
    obtain ⟨k', rs⟩ := g
    rw [List.map_cons, List.nodup_cons] at h
    rw [addToGroup]
    split
    · rw [List.map_cons, List.nodup_cons]
      exact h
    · next hne =>
      rw [List.map_cons, List.nodup_cons, mem_keys_addToGroup]
      refine ⟨?_, ih h.2⟩
      rintro (heq | hmem)
      · exact hne heq
      · exact h.1 hmem

theorem flatMap_addToGroup (groups : List (PartitionKey × List LogRecord)) (key : PartitionKey)
    (r : LogRecord) :
    ((addToGroup groups key r).flatMap Prod.snd).Perm (groups.flatMap Prod.snd ++ [r]) := by
  induction groups with
  | nil => simp [addToGroup]
  | cons g groups ih =>
    obtain ⟨k', rs⟩ := g
    rw [addToGroup]
    split
    · simp only [List.flatMap_cons, List.append_assoc]
      exact List.Perm.append_left rs List.perm_append_comm
    · simp only [List.flatMap_cons, List.append_assoc]
      exact List.Perm.append_left rs ih

theorem perm_partitions (tenancy : Tenancy) (records : List LogRecord) :
    ((partitions tenancy records).flatMap Prod.snd).Perm (records.map withoutRouting) := by
  have hfold : ∀ (rs : List LogRecord) (groups : List (PartitionKey × List LogRecord)),
      ((rs.foldl (fun groups r => addToGroup groups (partitionOf tenancy r).1 (withoutRouting r))
        groups).flatMap Prod.snd).Perm (groups.flatMap Prod.snd ++ rs.map withoutRouting) := by
    intro rs
    induction rs with
    | nil => simp
    | cons r rs ih =>
      intro groups
      rw [List.foldl_cons, List.map_cons]
      refine (ih _).trans ?_
      have hone := flatMap_addToGroup groups (partitionOf tenancy r).1 (withoutRouting r)
      simpa using hone.append_right (rs.map withoutRouting)
  exact ((List.perm_insertionSort _ _).flatMap_right _).trans (by simpa using hfold records [])

theorem mem_addToGroup {groups : List (PartitionKey × List LogRecord)} {key k : PartitionKey}
    {r x : LogRecord} :
    (∃ rs, (k, rs) ∈ addToGroup groups key r ∧ x ∈ rs) ↔
      (∃ rs, (k, rs) ∈ groups ∧ x ∈ rs) ∨ (k = key ∧ x = r) := by
  induction groups with
  | nil => simp [addToGroup]
  | cons g groups ih =>
    obtain ⟨k', rs'⟩ := g
    rw [addToGroup]
    split
    · next h =>
      subst h
      simp only [List.mem_cons, Prod.mk.injEq, or_and_right, exists_or, and_assoc,
        exists_and_left, exists_eq_left, List.mem_append, List.not_mem_nil, or_false, and_or_left]
      rw [or_right_comm]
    · simp only [List.mem_cons, Prod.mk.injEq, or_and_right, exists_or, ih, or_assoc]

/-- The rows of a partition are those of the records that belong to it. -/
theorem mem_partitions {tenancy : Tenancy} {records : List LogRecord} {k : PartitionKey}
    {x : LogRecord} :
    (∃ rs, (k, rs) ∈ partitions tenancy records ∧ x ∈ rs) ↔
      ∃ r ∈ records, (partitionOf tenancy r).1 = k ∧ withoutRouting r = x := by
  have hfold : ∀ (rs : List LogRecord) (groups : List (PartitionKey × List LogRecord)),
      (∃ l, (k, l) ∈ rs.foldl (fun groups r =>
          addToGroup groups (partitionOf tenancy r).1 (withoutRouting r)) groups ∧ x ∈ l) ↔
        (∃ l, (k, l) ∈ groups ∧ x ∈ l) ∨
          ∃ r ∈ rs, (partitionOf tenancy r).1 = k ∧ withoutRouting r = x := by
    intro rs
    induction rs with
    | nil => simp
    | cons r rs ih =>
      intro groups
      rw [List.foldl_cons, ih, mem_addToGroup, or_assoc, List.exists_mem_cons_iff, eq_comm (a := k),
        eq_comm (a := x)]
  rw [partitions]
  simp only [(List.perm_insertionSort _ _).mem_iff]
  rw [hfold]
  simp

theorem ne_nil_of_mem_addToGroup {groups : List (PartitionKey × List LogRecord)}
    (h : ∀ g ∈ groups, g.2 ≠ []) (key : PartitionKey) (r : LogRecord) :
    ∀ g ∈ addToGroup groups key r, g.2 ≠ [] := by
  induction groups with
  | nil => simp [addToGroup]
  | cons g groups ih =>
    rw [List.forall_mem_cons] at h
    rw [addToGroup]
    split
    · exact List.forall_mem_cons.mpr ⟨by simp, h.2⟩
    · exact List.forall_mem_cons.mpr ⟨h.1, ih h.2⟩

/-- No partition is empty. -/
theorem ne_nil_of_mem_partitions {tenancy : Tenancy} {records : List LogRecord}
    {g : PartitionKey × List LogRecord} (h : g ∈ partitions tenancy records) : g.2 ≠ [] := by
  have hfold : ∀ (rs : List LogRecord) (groups : List (PartitionKey × List LogRecord)),
      (∀ g ∈ groups, g.2 ≠ []) → ∀ g ∈ rs.foldl (fun groups r =>
        addToGroup groups (partitionOf tenancy r).1 (withoutRouting r)) groups, g.2 ≠ [] := by
    intro rs
    induction rs with
    | nil => exact fun _ hgroups => hgroups
    | cons r rs ih => exact fun groups hgroups => ih _ (ne_nil_of_mem_addToGroup hgroups _ _)
  rw [partitions, (List.perm_insertionSort _ _).mem_iff] at h
  exact hfold records [] (by simp) g h

theorem nodup_partitions (tenancy : Tenancy) (records : List LogRecord) :
    ((partitions tenancy records).map Prod.fst).Nodup := by
  have hfold : ∀ (rs : List LogRecord) (groups : List (PartitionKey × List LogRecord)),
      (groups.map Prod.fst).Nodup →
      ((rs.foldl (fun groups r => addToGroup groups (partitionOf tenancy r).1 (withoutRouting r))
        groups).map Prod.fst).Nodup := by
    intro rs
    induction rs with
    | nil => exact fun groups h => h
    | cons r rs ih => exact fun groups h => ih _ (nodup_keys_addToGroup h)
  have hperm := (List.perm_insertionSort (fun a b => PartitionKey.le a.1 b.1 = true)
    (records.foldl (fun groups r => addToGroup groups (partitionOf tenancy r).1 (withoutRouting r))
      [])).map Prod.fst
  exact hperm.nodup_iff.mpr (hfold records [] (by simp))

section

variable (tenancy : Tenancy) {δ : Type} (addLine : Miner δ) (now : ℕ)

theorem bare_assignTemplate (state : δ × MergeReport) (r : LogRecord) :
    bare (assignTemplate addLine now state r).2 = bare r := by
  rw [assignTemplate]
  split
  · rfl
  · split <;> rfl

theorem bare_assignTemplates (state : δ × MergeReport) (rs : List LogRecord) :
    (assignTemplates addLine now state rs).2.map bare = rs.map bare := by
  induction rs generalizing state with
  | nil => rfl
  | cons r rs ih => simp [assignTemplates, ih, bare_assignTemplate]

theorem keys_assignPartitions (state : δ × MergeReport)
    (groups : List (PartitionKey × List LogRecord)) :
    (assignPartitions addLine now state groups).2.map Prod.fst = groups.map Prod.fst := by
  induction groups generalizing state with
  | nil => rfl
  | cons g groups ih => simp [assignPartitions, ih]

theorem bareRows_assignPartitions (state : δ × MergeReport)
    (groups : List (PartitionKey × List LogRecord)) :
    (bareRows (assignPartitions addLine now state groups).2).Perm (bareRows groups) := by
  induction groups generalizing state with
  | nil => exact List.Perm.refl _
  | cons g groups ih =>
    simp only [assignPartitions, bareRows, List.flatMap_cons, List.map_append]
    refine List.Perm.append ?_ (ih _)
    rw [← bare_assignTemplates addLine now state g.2]
    exact (perm_sortRecords _).map bare

theorem mem_assignPartitions {k : PartitionKey} {x : LogRecord} (state : δ × MergeReport)
    (groups : List (PartitionKey × List LogRecord)) :
    (∃ rows, (k, rows) ∈ (assignPartitions addLine now state groups).2 ∧ x ∈ rows.map bare) ↔
      ∃ rs, (k, rs) ∈ groups ∧ x ∈ rs.map bare := by
  induction groups generalizing state with
  | nil => simp [assignPartitions]
  | cons g groups ih =>
    obtain ⟨key, rs⟩ := g
    have hrows : ∀ rows : List LogRecord, x ∈ (sortRecords rows).map bare ↔ x ∈ rows.map bare :=
      fun rows => ((perm_sortRecords rows).map bare).mem_iff
    simp only [assignPartitions, List.mem_cons, Prod.mk.injEq, or_and_right, exists_or, ih,
      and_assoc, exists_and_left, exists_eq_left, hrows, bare_assignTemplates]

/-- A row of a segment is in the partition of its record. -/
theorem mem_segmentRows {k : PartitionKey} {x : LogRecord} (state : δ × MergeReport)
    (batches : List Batch) :
    (∃ rows, (k, rows) ∈ (segmentRows tenancy addLine now state batches).2 ∧ x ∈ rows.map bare) ↔
      ∃ r ∈ batches.flatten, (partitionOf tenancy r).1 = k ∧ bare (withoutRouting r) = x := by
  rw [segmentRows, mem_assignPartitions]
  simp only [List.mem_map, ← exists_and_left]
  constructor
  · rintro ⟨rs, y, hk, hy, rfl⟩
    obtain ⟨r, hr, hkey, rfl⟩ := mem_partitions.mp ⟨rs, hk, hy⟩
    exact ⟨r, hr, hkey, rfl⟩
  · rintro ⟨r, hr, hkey, rfl⟩
    obtain ⟨rs, hk, hy⟩ := mem_partitions.mpr ⟨r, hr, hkey, rfl⟩
    exact ⟨rs, withoutRouting r, hk, hy, rfl⟩

/-- One file for each partition. -/
theorem nodup_segmentRows (state : δ × MergeReport) (batches : List Batch) :
    ((segmentRows tenancy addLine now state batches).2.map Prod.fst).Nodup := by
  rw [segmentRows, keys_assignPartitions]
  exact nodup_partitions tenancy _

/-- The rows of a segment are its records, whatever the miner. -/
theorem bareRows_segmentRows (state : δ × MergeReport) (batches : List Batch) :
    (bareRows (segmentRows tenancy addLine now state batches).2).Perm
      (batches.flatten.map fun r => bare (withoutRouting r)) := by
  rw [segmentRows]
  refine (bareRows_assignPartitions addLine now _ _).trans ?_
  rw [bareRows, ← Function.comp_def bare, ← List.map_map]
  exact (perm_partitions tenancy _).map bare

end

/-- The buckets that are configured for an index, or those of the default index, have names. -/
theorem bucket_ne_nil (tenancy : Tenancy) (tenant index : Text) (severity : Severity) :
    ((((tenancy.buckets tenant index).getD tenancy.defaultBuckets).bucketFor severity).map
      LevelBucket.name).getD [] ≠ [] := by
  have hnamed : ((tenancy.buckets tenant index).getD tenancy.defaultBuckets).buckets ≠ [] ∧
      ∀ x ∈ ((tenancy.buckets tenant index).getD tenancy.defaultBuckets).buckets,
        x.name ≠ [] := by
    cases hb : tenancy.buckets tenant index with
    | none => exact tenancy.named_defaultBuckets
    | some b => exact Tenancy.named_of_buckets hb
  obtain ⟨x, hx, hfor⟩ := LevelBuckets.exists_bucketFor hnamed.1 severity
  rw [hfor]
  exact hnamed.2 x hx

theorem validIdent_tenant (tenancy : Tenancy) : validIdent tenancy.tenant = true := by
  obtain ⟨c, -, hc⟩ := tenancy.configured_tenant
  exact Tenancy.validIdent_of_configured hc

theorem validIdent_defaultIndex (tenancy : Tenancy) (tenant : Text) :
    validIdent ((tenancy.defaultIndexOf tenant).getD defaultIndex) = true := by
  cases hd : tenancy.defaultIndexOf tenant with
  | none => decide
  | some d => exact Tenancy.validIdent_of_indexOf (Tenancy.indexOf_default hd)

/-- The partition of a record is one that its path tells. -/
theorem valid_partitionOf (tenancy : Tenancy) {r : LogRecord} (h : r.timestampUnixNano < 2 ^ 64) :
    (partitionOf tenancy r).1.Valid := by
  have hindex : ∀ tenant asked, validIdent (match tenancy.routeIn tenant asked with
      | .known index => (index, false)
      | .defaulted index => (index, true)
      | .refused => ((tenancy.defaultIndexOf tenant).getD defaultIndex, true)).1 = true := by
    intro tenant asked
    split
    · next index hroute => exact Tenancy.validIdent_of_routeIn (.inl hroute)
    · next index hroute => exact Tenancy.validIdent_of_routeIn (.inr hroute)
    · exact validIdent_defaultIndex tenancy tenant
  have hhour : r.timestampUnixNano / nanosPerHour < 2 ^ 63 := by
    unfold nanosPerHour
    omega
  refine ⟨?_, hindex _ _, tenancy.checked_tenants.1, bucket_ne_nil tenancy _ _ _, hhour⟩
  simp only [partitionOf]
  split
  · next t _ =>
    split
    · assumption
    · exact validIdent_tenant tenancy
  · exact validIdent_tenant tenancy

end LogLess.Store
