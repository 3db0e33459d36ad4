import LogLess.Lib.Runs
import LogLess.Store.Merge

/-!
# Runs of the merge

Segments appear in the two log directories of an instance, and `merge_all` runs over one
of them or the other, to its end or until a crash.

A committed file belongs to the segment whose merge committed it. As long as no two
segments share an id and the part of the uuid that file names keep, no merge writes to a
file of another segment, and the rows of the committed files are the records of the merged
segments, each once. Two things break this: two segments with one id made in one
millisecond, which the main and the late directory of a fresh instance have, and a frame
that the writer accepts and the reader does not.
-/

namespace LogLess.Store

open Wal Frames

/-! ## Histories -/

/-- A segment as its writer left it, perhaps with a piece of a frame at its end. -/
structure Segment where
  id : ℕ
  uuid : Uuid
  batches : List Batch
  tail : Bytes

def segmentBytes (uuid : Uuid) (body : Bytes) : Bytes := Wal.magic ++ uuid.bytes ++ body

def Segment.body (c : Codec) (s : Segment) : Bytes := c.frames s.batches ++ s.tail

def Segment.records (s : Segment) : List LogRecord := s.batches.flatten

/-- The disk and the segments that have appeared on it. -/
structure World where
  disk : Disk
  arrived : List (WalDir × Segment)

inductive Event (δ : Type) where
  | arrive (dir : WalDir) (s : Segment)
  /-- A segment whose creation crashed before its header was whole. -/
  | headerless (dir : WalDir) (id : ℕ) (bytes : Bytes)
  /-- A run of `merge_all` that stops after `stop` changes to the disk, or at its end. -/
  | merge (dir : WalDir) (active : Option ℕ) (now : ℕ) (drain : δ) (stop : Option ℕ)

def Disk.addFile (d : Disk) (dir : WalDir) (f : WalFile) : Disk :=
  { d with wal := Function.update d.wal dir (d.wal dir ++ [f]) }

/-- The changes a run that is stopped has made. -/
def done (stop : Option ℕ) (effects : List Effect) : List Effect :=
  match stop with
  | none => effects
  | some n => effects.take n

section

variable (c : Codec) (tenancy : Tenancy) {δ : Type} (addLine : Miner δ)

def World.step (w : World) : Event δ → World
  | .arrive dir s =>
    { disk := w.disk.addFile dir ⟨s.id, segmentBytes s.uuid (s.body c)⟩
      arrived := w.arrived ++ [(dir, s)] }
  | .headerless dir id bytes => { w with disk := w.disk.addFile dir ⟨id, bytes⟩ }
  | .merge dir active now drain stop =>
    let effects := (mergeAll c tenancy addLine dir active now w.disk drain).1
    { w with disk := w.disk.applyAll (done stop effects) }

end

def World.init : World := ⟨⟨fun _ => [], [], .empty⟩, []⟩

/-- Two segments that their uuids and their file names tell apart. -/
def Segment.apart (s t : Segment) : Bool :=
  s.uuid != t.uuid && !(s.id == t.id && s.uuid.bytes.take 6 == t.uuid.bytes.take 6)

/-- The id is free in the directory: a file is named after its id. -/
def Disk.free (d : Disk) (dir : WalDir) (id : ℕ) : Bool := (d.wal dir).all fun f => f.id != id

/-- Segments appear under free ids and apart from all earlier ones. -/
def World.ok {δ : Type} (w : World) : Event δ → Bool
  | .arrive dir s => w.disk.free dir s.id && w.arrived.all fun a => a.2.apart s
  | .headerless dir id bytes => w.disk.free dir id && isIncompleteHeader bytes
  | .merge .. => true

/-! ## One segment -/

section

variable {c : Codec}

theorem readHeader_segmentBytes (u : Uuid) (body : Bytes) :
    readHeader (segmentBytes u body) = some (u, body) := readHeader_append u body

theorem isIncompleteHeader_segmentBytes (u : Uuid) (body : Bytes) :
    isIncompleteHeader (segmentBytes u body) = false := by
  have hlen : headerBytes ≤ (segmentBytes u body).length := by
    rw [segmentBytes, List.length_append, length_header]
    omega
  simp [isIncompleteHeader, hlen]

/-- A replay returns with the header as it was. -/
theorem replaySegment_segmentBytes (u : Uuid) (body : Bytes) :
    ∃ r body', replaySegment c true (segmentBytes u body) = .ok r ∧
      r.bytes = segmentBytes u body' := by
  rw [replaySegment, readHeader_segmentBytes]
  simp only
  set goodLen := headerBytes + ((scan c.hash okLen c.fromBytes body).map
    fun x => frameHeaderBytes + x.1.length).sum with hgood
  by_cases hdamaged : (decide (goodLen < (segmentBytes u body).length) && true) = true
  · refine ⟨_, body.take (goodLen - headerBytes), rfl, ?_⟩
    simp only [hdamaged, if_true]
    rw [segmentBytes, List.take_append, length_header,
      List.take_of_length_le (by rw [length_header]; omega)]
    rfl
  · exact ⟨_, body, rfl, by simp only [hdamaged]; rfl⟩

/-- A replay of frames that all fit returns them, and the segment without what follows. -/
theorem replaySegment_fits (u : Uuid) {bs : List Batch} (hinv : c.Inverts bs)
    (hlen : ∀ b ∈ bs, (c.toStdvec b).length < 2 ^ 32) (hfits : ∀ b ∈ bs, c.fits b = true)
    {tail : Bytes} (htail : readFrame c.hash okLen c.fromBytes tail = none) :
    ∃ r, replaySegment c true (segmentBytes u (c.frames bs ++ tail)) = .ok r ∧
      r.visited = bs ∧ r.bytes = segmentBytes u (c.frames bs) := by
  have hread : scan c.hash okLen c.fromBytes (c.frames bs ++ tail)
      = bs.map fun b => (c.toStdvec b, b) := by
    rw [scan_frames hinv hlen htail, List.takeWhile_eq_self_iff.mpr (by simpa using hfits)]
  have hsum : ((bs.map fun b => (c.toStdvec b, b)).map
      fun x : Bytes × Batch => frameHeaderBytes + x.1.length).sum = (c.frames bs).length := by
    rw [List.map_map, Codec.frames, frames, List.length_flatMap, List.map_map]
    congr 1
    apply List.map_congr_left
    intro b _
    rw [Function.comp_apply, Function.comp_apply, length_frame]
    rfl
  rw [replaySegment, readHeader_segmentBytes]
  simp only [hread, hsum]
  refine ⟨_, rfl, by simp [Function.comp_def], ?_⟩
  have hbytes : (segmentBytes u (c.frames bs ++ tail)).length
      = headerBytes + (c.frames bs).length + tail.length := by
    rw [segmentBytes, List.length_append, length_header, List.length_append]
    omega
  cases tail with
  | nil =>
    rw [List.append_nil, List.length_nil] at hbytes
    simp [hbytes]
  | cons x tail =>
    have hlt : headerBytes + (c.frames bs).length
        < (segmentBytes u (c.frames bs ++ x :: tail)).length := by
      rw [hbytes, List.length_cons]
      omega
    simp only [hlt, decide_true, Bool.true_and, if_true]
    rw [segmentBytes, List.take_append, length_header,
      List.take_of_length_le (by rw [length_header]; omega), Nat.add_sub_cancel_left,
      List.take_left' rfl]
    rfl

variable (c) (tenancy : Tenancy) {δ : Type} (addLine : Miner δ) (dir : WalDir) (now : ℕ)
  (catalog : Catalog) (state : δ × MergeReport)

/-- A segment without a whole header is removed. -/
theorem mergeSegment_headerless {f : WalFile} (h : isIncompleteHeader f.bytes = true) :
    ∃ state', mergeSegment c tenancy addLine dir now catalog state f
      = .ok ([.remove dir f.id], state') := by
  rw [mergeSegment]
  simp only [h, if_true]
  exact ⟨_, rfl⟩

/-- A segment that has been merged is removed. -/
theorem mergeSegment_merged (id : ℕ) {u : Uuid} (body : Bytes)
    (h : catalog.isSegmentMerged u = true) :
    ∃ state', mergeSegment c tenancy addLine dir now catalog state ⟨id, segmentBytes u body⟩
      = .ok ([.remove dir id], state') := by
  rw [mergeSegment]
  simp only [isIncompleteHeader_segmentBytes, segmentUuid, readHeader_segmentBytes, h, if_true]
  exact ⟨_, rfl⟩

variable {c} in
/-- A segment that has not been merged is. -/
theorem mergeSegment_new (id : ℕ) {u : Uuid} {body : Bytes}
    (h : catalog.isSegmentMerged u = false) {r : Replay}
    (hr : replaySegment c true (segmentBytes u body) = .ok r) :
    ∃ state₁ state', mergeSegment c tenancy addLine dir now catalog state ⟨id, segmentBytes u body⟩
      = .ok (segmentEffects dir now id u r
          (segmentRows tenancy addLine now state₁ r.visited).2, state') := by
  rw [mergeSegment]
  simp only [isIncompleteHeader_segmentBytes, segmentUuid, readHeader_segmentBytes, h, hr]
  exact ⟨_, _, rfl⟩

end

/-! ## Who owns what -/

/-- What is on the disk belongs to the segments that have arrived: a log file is headerless
or a segment with a body that `B` allows, a committed file is of a merged segment, and a
segment that is not merged is in its directory. -/
structure Owned (B : Segment → Bytes → Prop) (arrived : List (WalDir × Segment)) (d : Disk) :
    Prop where
  files : ∀ dir, ∀ f ∈ d.wal dir, isIncompleteHeader f.bytes = true ∨
    ∃ s body, (dir, s) ∈ arrived ∧ B s body ∧ f = ⟨s.id, segmentBytes s.uuid body⟩
  ids : ∀ dir, ((d.wal dir).map WalFile.id).Nodup
  owner : ∀ p ∈ d.catalog.paths, ∃ a ∈ arrived, d.catalog.isSegmentMerged a.2.uuid = true ∧
    ∃ key, p = filePath key a.2.id a.2.uuid
  present : ∀ a ∈ arrived, d.catalog.isSegmentMerged a.2.uuid = true ∨
    ∃ body, B a.2 body ∧ ⟨a.2.id, segmentBytes a.2.uuid body⟩ ∈ d.wal a.1
  known : ∀ u, d.catalog.isSegmentMerged u = true → ∃ a ∈ arrived, a.2.uuid = u

/-- The committed files of `d` are committed in `d'` too, with the same rows. -/
def Keeps (d d' : Disk) : Prop :=
  ∀ p ∈ d.catalog.paths, p ∈ d'.catalog.paths ∧ Assoc.get d'.store p = Assoc.get d.store p

theorem Keeps.refl (d : Disk) : Keeps d d := fun _ hp => ⟨hp, rfl⟩

theorem Keeps.trans {d d' d'' : Disk} (h : Keeps d d') (h' : Keeps d' d'') : Keeps d d'' := by
  intro p hp
  obtain ⟨hp', hget⟩ := h p hp
  obtain ⟨hp'', hget'⟩ := h' p hp'
  exact ⟨hp'', hget'.trans hget⟩

/-- All rows of the committed files. -/
def Disk.committed (d : Disk) : List LogRecord :=
  d.catalog.paths.flatMap fun p => (Assoc.get d.store p).getD []

theorem committed_of_keeps {d d' : Disk} (h : Keeps d d') (hpaths : d'.catalog.paths = d.catalog.paths) :
    d'.committed = d.committed := by
  rw [Disk.committed, Disk.committed, hpaths, List.flatMap_def, List.flatMap_def]
  congr 1
  apply List.map_congr_left
  intro p hp
  rw [(h p hp).2]

/-- The records of the merged segments, as rows without a template id. -/
def Disk.mergedRecords (d : Disk) (arrived : List (WalDir × Segment)) : List LogRecord :=
  (arrived.filter fun a => d.catalog.isSegmentMerged a.2.uuid).flatMap fun a =>
    a.2.records.map fun r => bare (withoutRouting r)

/-- The committed rows are the records of the merged segments, each once. -/
def Disk.Accounts (d : Disk) (arrived : List (WalDir × Segment)) : Prop :=
  (d.committed.map bare).Perm (d.mergedRecords arrived)

theorem Segment.apart_comm {s t : Segment} : s.apart t = t.apart s := by
  simp only [Segment.apart, Bool.beq_comm (a := s.id), bne_comm (a := s.uuid),
    Bool.beq_comm (a := s.uuid.bytes.take 6)]

/-- Segments that are apart have no path in common. -/
theorem Segment.filePath_ne {s t : Segment} (h : s.apart t = true) (k l : PartitionKey) :
    filePath k s.id s.uuid ≠ filePath l t.id t.uuid := by
  intro heq
  obtain ⟨-, hid, hbytes⟩ := filePath_inj.mp heq
  simp [Segment.apart, hid, hbytes] at h

section

variable {arrived : List (WalDir × Segment)}

/-- All segments that have arrived are apart. -/
def Apart (arrived : List (WalDir × Segment)) : Prop :=
  arrived.Pairwise fun a b => a.2.apart b.2 = true

theorem Apart.of_ne (h : Apart arrived) {a b : WalDir × Segment} (ha : a ∈ arrived)
    (hb : b ∈ arrived) (hne : a ≠ b) : a.2.apart b.2 = true := by
  have hsymm : Std.Symm fun a b : WalDir × Segment => a.2.apart b.2 = true := by
    constructor
    intro x y hxy
    rw [Segment.apart_comm]
    exact hxy
  exact List.Pairwise.forall h ha hb hne

theorem Apart.eq_of_uuid_eq (h : Apart arrived) {a b : WalDir × Segment} (ha : a ∈ arrived)
    (hb : b ∈ arrived) (heq : a.2.uuid = b.2.uuid) : a = b := by
  by_contra hne
  have := h.of_ne ha hb hne
  simp [Segment.apart, heq] at this

/-- The segment of a uuid, once among those that have arrived. -/
theorem Apart.filter_uuid (h : Apart arrived) {a : WalDir × Segment} (ha : a ∈ arrived) :
    arrived.filter (fun b => b.2.uuid == a.2.uuid) = [a] := by
  have hall : ∀ b ∈ arrived.filter (fun b => b.2.uuid == a.2.uuid), b = a := by
    intro b hb
    obtain ⟨hb, huuid⟩ := List.mem_filter.mp hb
    exact h.eq_of_uuid_eq hb ha (by simpa using huuid)
  have hmem : a ∈ arrived.filter (fun b => b.2.uuid == a.2.uuid) :=
    List.mem_filter.mpr ⟨ha, by simp⟩
  have hpair : (arrived.filter (fun b => b.2.uuid == a.2.uuid)).Pairwise
      fun a b => a.2.apart b.2 = true := h.sublist List.filter_sublist
  generalize arrived.filter (fun b => b.2.uuid == a.2.uuid) = l at hall hmem hpair
  match l with
  | [] => cases hmem
  | [b] => rw [hall b List.mem_cons_self]
  | b :: b' :: l =>
    exfalso
    have hb := hall b List.mem_cons_self
    have hb' := hall b' (by simp)
    have := (List.pairwise_cons.mp hpair).1 b' List.mem_cons_self
    simp [hb, hb', Segment.apart] at this

end

/-! ## The changes made for one segment -/

section

variable {B : Segment → Bytes → Prop} {arrived : List (WalDir × Segment)} {d d' : Disk}
  {dir : WalDir} {s : Segment}

theorem Disk.applyAll_append (d : Disk) (es es' : List Effect) :
    d.applyAll (es ++ es') = (d.applyAll es).applyAll es' := List.foldl_append

/-- A log file has its id to itself. -/
theorem Owned.file_eq (H : Owned B arrived d) {f g : WalFile} (hf : f ∈ d.wal dir)
    (hg : g ∈ d.wal dir) (hid : f.id = g.id) : f = g :=
  List.inj_on_of_nodup_map (H.ids dir) hf hg hid

theorem segmentBytes_inj {u v : Uuid} {b b' : Bytes} :
    segmentBytes u b = segmentBytes v b' ↔ u = v ∧ b = b' := by
  refine ⟨fun h => ?_, by rintro ⟨rfl, rfl⟩; rfl⟩
  have hheader := congrArg readHeader h
  rw [readHeader_segmentBytes, readHeader_segmentBytes, Option.some.injEq, Prod.mk.injEq] at hheader
  exact hheader

variable (B arrived dir s) in
/-- From `d` to `d'` only changes were made that come before the commit of `s`: its tail may
have been cut off, and some of its files written. -/
structure Staged (d d' : Disk) : Prop where
  owned : Owned B arrived d'
  catalog : d'.catalog = d.catalog
  store : ∀ p ∈ d.catalog.paths, Assoc.get d'.store p = Assoc.get d.store p
  file : ∃ body, B s body ∧ ⟨s.id, segmentBytes s.uuid body⟩ ∈ d'.wal dir
  rest : (d'.wal dir).filter (fun f => f.id != s.id) = (d.wal dir).filter (fun f => f.id != s.id)
  other : ∀ dir', dir' ≠ dir → d'.wal dir' = d.wal dir'

theorem Staged.truncate (h : Staged B arrived dir s d d') (hapart : Apart arrived)
    (hs : (dir, s) ∈ arrived) {body : Bytes} (hbody : B s body) :
    Staged B arrived dir s d (d'.apply (.truncate dir s.id (segmentBytes s.uuid body))) := by
  obtain ⟨old, -, hold⟩ := h.file
  have hwal : (d'.apply (.truncate dir s.id (segmentBytes s.uuid body))).wal dir
      = (d'.wal dir).map fun f => if f.id = s.id then ⟨f.id, segmentBytes s.uuid body⟩ else f := by
    simp [Disk.apply]
  have hother : ∀ dir', dir' ≠ dir →
      (d'.apply (.truncate dir s.id (segmentBytes s.uuid body))).wal dir' = d'.wal dir' := by
    intro dir' hne
    simp [Disk.apply, hne]
  have hnew : (⟨s.id, segmentBytes s.uuid body⟩ : WalFile)
      ∈ (d'.apply (.truncate dir s.id (segmentBytes s.uuid body))).wal dir := by
    rw [hwal]
    exact List.mem_map.mpr ⟨_, hold, by simp⟩
  refine ⟨⟨?_, ?_, h.owned.owner, ?_, h.owned.known⟩, h.catalog, h.store, ⟨body, hbody, hnew⟩, ?_, ?_⟩
  · intro dir' f hf
    by_cases hdir : dir' = dir
    · subst hdir
      rw [hwal] at hf
      obtain ⟨g, hg, rfl⟩ := List.mem_map.mp hf
      split
      · next hid => exact .inr ⟨s, body, hs, hbody, by rw [hid]⟩
      · exact h.owned.files dir' g hg
    · rw [hother dir' hdir] at hf
      exact h.owned.files dir' f hf
  · intro dir'
    by_cases hdir : dir' = dir
    · subst hdir
      have hids : ((d'.wal dir').map fun f =>
          if f.id = s.id then (⟨f.id, segmentBytes s.uuid body⟩ : WalFile) else f).map WalFile.id
          = (d'.wal dir').map WalFile.id := by
        rw [List.map_map]
        apply List.map_congr_left
        intro f _
        rw [Function.comp_apply]
        split <;> rfl
      rw [hwal, hids]
      exact h.owned.ids dir'
    · rw [hother dir' hdir]
      exact h.owned.ids dir'
  · -- the file that changed is the one of `s`
    intro a ha
    rcases h.owned.present a ha with hmerged | ⟨b, hb, hfile⟩
    · exact .inl hmerged
    · right
      by_cases hdir : a.1 = dir
      · by_cases hid : a.2.id = s.id
        · have heq := h.owned.file_eq (hdir ▸ hfile) hold hid
          have huuid : a.2.uuid = s.uuid := (segmentBytes_inj.mp (congrArg WalFile.bytes heq)).1
          obtain rfl := hapart.eq_of_uuid_eq ha hs huuid
          exact ⟨body, hbody, hnew⟩
        · refine ⟨b, hb, ?_⟩
          rw [hdir, hwal]
          exact List.mem_map.mpr ⟨_, hdir ▸ hfile, if_neg hid⟩
      · refine ⟨b, hb, ?_⟩
        rw [hother a.1 hdir]
        exact hfile
  · rw [hwal, ← h.rest, List.filter_map]
    rw [← List.map_id ((d'.wal dir).filter fun f => f.id != s.id)]
    have hpred : ((fun f : WalFile => f.id != s.id) ∘ fun f : WalFile =>
        if f.id = s.id then ⟨f.id, segmentBytes s.uuid body⟩ else f)
        = fun f => f.id != s.id := by
      funext f
      rw [Function.comp_apply]
      split <;> rfl
    rw [hpred]
    apply List.map_congr_left
    intro f hf
    have := (List.mem_filter.mp hf).2
    exact if_neg (by simpa using this)
  · intro dir' hne
    rw [hother dir' hne]
    exact h.other dir' hne

/-- No committed file is at a path of a segment that is not merged. -/
theorem Owned.path_fresh (H : Owned B arrived d) (hapart : Apart arrived)
    (hs : (dir, s) ∈ arrived) (hnew : d.catalog.isSegmentMerged s.uuid = false)
    (key : PartitionKey) : filePath key s.id s.uuid ∉ d.catalog.paths := by
  intro hmem
  obtain ⟨a, ha, hmerged, k, heq⟩ := H.owner _ hmem
  have hne : a.2.uuid ≠ s.uuid := by
    intro huuid
    rw [huuid, hnew] at hmerged
    cases hmerged
  have hap : a.2.apart s = true := hapart.of_ne ha hs fun h => hne (by rw [h])
  exact Segment.filePath_ne hap k key heq.symm

theorem Staged.write (h : Staged B arrived dir s d d') (hapart : Apart arrived)
    (hs : (dir, s) ∈ arrived) (hnew : d.catalog.isSegmentMerged s.uuid = false)
    (key : PartitionKey) (rows : List LogRecord) :
    Staged B arrived dir s d (d'.apply (.write (filePath key s.id s.uuid) rows)) := by
  refine ⟨⟨h.owned.files, h.owned.ids, h.owned.owner, h.owned.present, h.owned.known⟩, h.catalog, ?_,
    h.file,
    h.rest, h.other⟩
  intro p hp
  have hne : p ≠ filePath key s.id s.uuid := by
    rintro rfl
    have hfresh := h.owned.path_fresh hapart hs (by rw [h.catalog]; exact hnew) key
    rw [h.catalog] at hfresh
    exact hfresh hp
  show Assoc.get (Assoc.insert d'.store (filePath key s.id s.uuid) rows) p = _
  rw [Assoc.get_insert, if_neg hne]
  exact h.store p hp

variable (B dir s) in
/-- A change that is made for `s` before its commit. -/
def Early (e : Effect) : Prop :=
  (∃ body, B s body ∧ e = .truncate dir s.id (segmentBytes s.uuid body)) ∨
    ∃ key rows, e = .write (filePath key s.id s.uuid) rows

theorem Staged.applyAll (h : Staged B arrived dir s d d') (hapart : Apart arrived)
    (hs : (dir, s) ∈ arrived) (hnew : d.catalog.isSegmentMerged s.uuid = false)
    {es : List Effect} (hes : ∀ e ∈ es, Early B dir s e) :
    Staged B arrived dir s d (d'.applyAll es) := by
  induction es generalizing d' with
  | nil => exact h
  | cons e es ih =>
    refine ih ?_ fun e' he' => hes e' (List.mem_cons_of_mem _ he')
    rcases hes e List.mem_cons_self with ⟨body, hbody, rfl⟩ | ⟨key, rows, rfl⟩
    · exact h.truncate hapart hs hbody
    · exact h.write hapart hs hnew key rows

theorem Staged.keeps (h : Staged B arrived dir s d d') : Keeps d d' := by
  intro p hp
  rw [h.catalog]
  exact ⟨hp, h.store p hp⟩

theorem Staged.committed (h : Staged B arrived dir s d d') : d'.committed = d.committed :=
  committed_of_keeps h.keeps (by rw [h.catalog])

/-- After the files of a segment are written, each is at its path. -/
theorem get_applyAll_writes {id : ℕ} {u : Uuid} {rows : List (PartitionKey × List LogRecord)}
    (hnodup : (rows.map Prod.fst).Nodup) (d : Disk) {x : PartitionKey × List LogRecord}
    (hx : x ∈ rows) :
    Assoc.get (d.applyAll (rows.map fun x => .write (filePath x.1 id u) x.2)).store
      (filePath x.1 id u) = some x.2 := by
  -- a later write is to another partition, so to another path
  have hlater : ∀ (ys : List (PartitionKey × List LogRecord)) (d : Disk),
      x.1 ∉ ys.map Prod.fst →
      Assoc.get (d.applyAll (ys.map fun x => .write (filePath x.1 id u) x.2)).store
        (filePath x.1 id u) = Assoc.get d.store (filePath x.1 id u) := by
    intro ys
    induction ys with
    | nil => exact fun d _ => rfl
    | cons y ys ih =>
      intro d hy
      rw [List.map_cons, List.mem_cons, not_or] at hy
      rw [List.map_cons, Disk.applyAll, List.foldl_cons]
      refine (ih _ hy.2).trans ?_
      show Assoc.get (Assoc.insert d.store (filePath y.1 id u) y.2) _ = _
      rw [Assoc.get_insert, if_neg]
      intro heq
      exact hy.1 (filePath_inj.mp heq).1
  induction rows generalizing d with
  | nil => cases hx
  | cons y rows ih =>
    rw [List.map_cons, List.nodup_cons] at hnodup
    rw [List.map_cons, Disk.applyAll, List.foldl_cons]
    rcases List.mem_cons.mp hx with rfl | hx
    · refine (hlater rows _ hnodup.1).trans ?_
      show Assoc.get (Assoc.insert d.store (filePath x.1 id u) x.2) _ = _
      rw [Assoc.get_insert, if_pos rfl]
    · exact ih hnodup.2 _ hx

/-- The files of one segment are at different paths. -/
theorem nodup_entriesOf {id : ℕ} {u : Uuid} {rows : List (PartitionKey × List LogRecord)}
    (hnodup : (rows.map Prod.fst).Nodup) :
    ((entriesOf id u rows).map FileEntry.path).Nodup := by
  have hpaths : (entriesOf id u rows).map FileEntry.path
      = (rows.map Prod.fst).map fun k => filePath k id u := by
    simp [entriesOf, Function.comp_def]
  rw [hpaths]
  exact hnodup.map fun k l heq => (filePath_inj.mp heq).1

section Commit

variable {rows : List (PartitionKey × List LogRecord)} {ss : List TemplateSighting} {now : ℕ}

theorem Staged.paths_commit (h : Staged B arrived dir s d d') (hapart : Apart arrived)
    (hs : (dir, s) ∈ arrived) (hnew : d.catalog.isSegmentMerged s.uuid = false)
    (hnodup : (rows.map Prod.fst).Nodup) :
    (d'.apply (.commit s.id s.uuid (entriesOf s.id s.uuid rows) ss now)).catalog.paths
      = d.catalog.paths ++ rows.map fun x => filePath x.1 s.id s.uuid := by
  have hfresh : ∀ f ∈ entriesOf s.id s.uuid rows, f.path ∉ d'.catalog.paths := by
    intro f hf
    obtain ⟨x, -, rfl⟩ := List.mem_map.mp hf
    exact h.owned.path_fresh hapart hs (by rw [h.catalog]; exact hnew) x.1
  show (d'.catalog.commitMerge s.id s.uuid (entriesOf s.id s.uuid rows) ss now).paths = _
  rw [Catalog.paths_commitMerge hfresh (nodup_entriesOf hnodup), h.catalog]
  simp [entriesOf, Function.comp_def]

theorem merged_commit (v : Uuid) :
    (d'.apply (.commit s.id s.uuid (entriesOf s.id s.uuid rows) ss now)).catalog.isSegmentMerged v
      = true ↔ v = s.uuid ∨ d'.catalog.isSegmentMerged v = true :=
  Catalog.isSegmentMerged_commitMerge

theorem Staged.owned_commit (h : Staged B arrived dir s d d') (hapart : Apart arrived)
    (hs : (dir, s) ∈ arrived) (hnew : d.catalog.isSegmentMerged s.uuid = false)
    (hnodup : (rows.map Prod.fst).Nodup) :
    Owned B arrived (d'.apply (.commit s.id s.uuid (entriesOf s.id s.uuid rows) ss now)) := by
  refine ⟨h.owned.files, h.owned.ids, ?_, ?_, ?_⟩
  · intro p hp
    rw [h.paths_commit hapart hs hnew hnodup] at hp
    rcases List.mem_append.mp hp with hp | hp
    · rw [← h.catalog] at hp
      obtain ⟨a, ha, hmerged, key, rfl⟩ := h.owned.owner p hp
      exact ⟨a, ha, (merged_commit _).mpr (.inr hmerged), key, rfl⟩
    · obtain ⟨x, -, rfl⟩ := List.mem_map.mp hp
      exact ⟨(dir, s), hs, (merged_commit _).mpr (.inl rfl), x.1, rfl⟩
  · intro a ha
    rcases h.owned.present a ha with hmerged | hfile
    · exact .inl ((merged_commit _).mpr (.inr hmerged))
    · exact .inr hfile
  · intro u hu
    rcases (merged_commit u).mp hu with rfl | hu
    · exact ⟨(dir, s), hs, rfl⟩
    · exact h.owned.known u hu

theorem Staged.keeps_commit (h : Staged B arrived dir s d d') (hapart : Apart arrived)
    (hs : (dir, s) ∈ arrived) (hnew : d.catalog.isSegmentMerged s.uuid = false)
    (hnodup : (rows.map Prod.fst).Nodup) :
    Keeps d (d'.apply (.commit s.id s.uuid (entriesOf s.id s.uuid rows) ss now)) := by
  intro p hp
  rw [h.paths_commit hapart hs hnew hnodup]
  exact ⟨List.mem_append_left _ hp, h.store p hp⟩

/-- The commit of a segment adds its records to those merged. -/
theorem mergedRecords_commit (hapart : Apart arrived) (hs : (dir, s) ∈ arrived)
    (hnew : d.catalog.isSegmentMerged s.uuid = false) (files : List FileEntry)
    (ss : List TemplateSighting) (now : ℕ) :
    ((d.apply (.commit s.id s.uuid files ss now)).mergedRecords arrived).Perm
      (d.mergedRecords arrived ++ s.records.map fun r => bare (withoutRouting r)) := by
  have hcommit : ∀ v, (d.apply (.commit s.id s.uuid files ss now)).catalog.isSegmentMerged v = true
      ↔ v = s.uuid ∨ d.catalog.isSegmentMerged v = true :=
    fun v => Catalog.isSegmentMerged_commitMerge
  set dC := d.apply (.commit s.id s.uuid files ss now)
  have hsplit : (arrived.filter fun a => dC.catalog.isSegmentMerged a.2.uuid).Perm
      ((arrived.filter fun a => d.catalog.isSegmentMerged a.2.uuid) ++ [(dir, s)]) := by
    rw [← hapart.filter_uuid hs]
    refine (List.filter_append_perm (fun a => d.catalog.isSegmentMerged a.2.uuid) _).symm.trans ?_
    rw [List.filter_filter, List.filter_filter]
    refine List.Perm.of_eq (congrArg₂ _ (List.filter_congr fun a _ => ?_)
      (List.filter_congr fun a _ => ?_))
    · rw [Bool.eq_iff_iff, Bool.and_eq_true, hcommit]
      tauto
    · rw [Bool.eq_iff_iff, Bool.and_eq_true, hcommit, beq_iff_eq]
      constructor
      · rintro ⟨hnot, huuid | hmerged⟩
        · exact huuid
        · simp [hmerged] at hnot
      · rintro huuid
        rw [huuid, hnew]
        exact ⟨rfl, .inl rfl⟩
  have := hsplit.flatMap_right fun a => a.2.records.map fun r => bare (withoutRouting r)
  simpa [Disk.mergedRecords, List.flatMap_append] using this

/-- The commit adds the rows of the segment to those committed before, and the segment to
those that are merged. -/
theorem Staged.accounts_commit (h : Staged B arrived dir s d d') (hapart : Apart arrived)
    (hs : (dir, s) ∈ arrived) (hnew : d.catalog.isSegmentMerged s.uuid = false)
    (hnodup : (rows.map Prod.fst).Nodup)
    (hstore : ∀ x ∈ rows, Assoc.get d'.store (filePath x.1 s.id s.uuid) = some x.2)
    (hrows : (bareRows rows).Perm (s.records.map fun r => bare (withoutRouting r)))
    (hacc : d.Accounts arrived) :
    (d'.apply (.commit s.id s.uuid (entriesOf s.id s.uuid rows) ss now)).Accounts arrived := by
  set dC := d'.apply (.commit s.id s.uuid (entriesOf s.id s.uuid rows) ss now) with hdC
  have hcommitted : dC.committed = d.committed ++ rows.flatMap Prod.snd := by
    have hold : (d.catalog.paths.flatMap fun p => (Assoc.get dC.store p).getD [])
        = d.committed := by
      rw [← h.committed, Disk.committed, h.catalog]
      rfl
    have hadded : (rows.map fun x => filePath x.1 s.id s.uuid).flatMap
        (fun p => (Assoc.get dC.store p).getD []) = rows.flatMap Prod.snd := by
      rw [List.flatMap_map, List.flatMap_def, List.flatMap_def]
      congr 1
      apply List.map_congr_left
      intro x hx
      show (Assoc.get d'.store (filePath x.1 s.id s.uuid)).getD [] = x.2
      rw [hstore x hx]
      rfl
    rw [Disk.committed, h.paths_commit hapart hs hnew hnodup, List.flatMap_append, hold, hadded]
  have hmerged : (dC.mergedRecords arrived).Perm
      (d'.mergedRecords arrived ++ s.records.map fun r => bare (withoutRouting r)) :=
    mergedRecords_commit hapart hs (by rw [h.catalog]; exact hnew) _ _ _
  have hsame : d'.mergedRecords arrived = d.mergedRecords arrived := by
    rw [Disk.mergedRecords, Disk.mergedRecords, h.catalog]
  rw [hsame] at hmerged
  rw [Disk.Accounts, hcommitted, List.map_append]
  exact (hacc.append hrows).trans hmerged.symm

end Commit

/-- Removing a log file that is headerless or of a merged segment. -/
theorem Owned.remove (H : Owned B arrived d) {f : WalFile} (hf : f ∈ d.wal dir)
    (hdone : isIncompleteHeader f.bytes = true ∨
      ∃ u body, f.bytes = segmentBytes u body ∧ d.catalog.isSegmentMerged u = true) :
    Owned B arrived (d.apply (.remove dir f.id)) := by
  have hwal : (d.apply (.remove dir f.id)).wal dir = (d.wal dir).filter fun g => g.id != f.id := by
    simp [Disk.apply]
  have hother : ∀ dir', dir' ≠ dir → (d.apply (.remove dir f.id)).wal dir' = d.wal dir' := by
    intro dir' hne
    simp [Disk.apply, hne]
  refine ⟨?_, ?_, H.owner, ?_, H.known⟩
  · intro dir' g hg
    by_cases hdir : dir' = dir
    · subst hdir
      rw [hwal] at hg
      exact H.files dir' g (List.mem_of_mem_filter hg)
    · rw [hother dir' hdir] at hg
      exact H.files dir' g hg
  · intro dir'
    by_cases hdir : dir' = dir
    · subst hdir
      rw [hwal]
      exact (H.ids dir').sublist (List.filter_sublist.map _)
    · rw [hother dir' hdir]
      exact H.ids dir'
  · intro a ha
    rcases H.present a ha with hmerged | ⟨body, hbody, hfile⟩
    · exact .inl hmerged
    · by_cases hdir : a.1 = dir
      · by_cases hid : a.2.id = f.id
        · -- the file that goes is the one of `a`, so `a` is merged
          left
          obtain rfl := H.file_eq (hdir ▸ hfile) hf hid
          rcases hdone with hinc | ⟨u, b, hbytes, hmerged⟩
          · rw [isIncompleteHeader_segmentBytes] at hinc
            cases hinc
          · rw [(segmentBytes_inj.mp hbytes).1]
            exact hmerged
        · refine .inr ⟨body, hbody, ?_⟩
          rw [hdir, hwal]
          exact List.mem_filter.mpr ⟨hdir ▸ hfile, by simpa using hid⟩
      · refine .inr ⟨body, hbody, ?_⟩
        rw [hother a.1 hdir]
        exact hfile

end

/-! ## What a run keeps, wherever it stops -/

section

variable (c : Codec) (B : Segment → Bytes → Prop) (arrived : List (WalDir × Segment))

/-- A replay of a body that `B` allows leaves one that `B` allows. -/
def Stable : Prop :=
  ∀ s body, B s body → ∃ r body', replaySegment c true (segmentBytes s.uuid body) = .ok r ∧
    r.bytes = segmentBytes s.uuid body' ∧ B s body'

/-- A replay of a body that `B` allows visits the batches of the segment. -/
def Faithful : Prop :=
  ∀ s body, B s body → ∀ r, replaySegment c true (segmentBytes s.uuid body) = .ok r →
    r.visited = s.batches

structure Progress (d d' : Disk) : Prop where
  owned : Owned B arrived d'
  keeps : Keeps d d'
  accounts : Faithful c B → d.Accounts arrived → d'.Accounts arrived

variable {c B arrived}

theorem Progress.trans {d d' d'' : Disk} (h : Progress c B arrived d d')
    (h' : Progress c B arrived d' d'') : Progress c B arrived d d'' :=
  ⟨h'.owned, h.keeps.trans h'.keeps, fun hf ha => h'.accounts hf (h.accounts hf ha)⟩

theorem Staged.progress {d d' : Disk} {dir : WalDir} {s : Segment}
    (h : Staged B arrived dir s d d') : Progress c B arrived d d' := by
  refine ⟨h.owned, h.keeps, fun _ hacc => ?_⟩
  rw [Disk.Accounts, h.committed, Disk.mergedRecords, h.catalog]
  exact hacc

variable (c) in
theorem Progress.remove {d d' : Disk} (h : Progress c B arrived d d') {dir : WalDir} {f : WalFile}
    (hf : f ∈ d'.wal dir) (hdone : isIncompleteHeader f.bytes = true ∨
      ∃ u body, f.bytes = segmentBytes u body ∧ d'.catalog.isSegmentMerged u = true) :
    Progress c B arrived d (d'.apply (.remove dir f.id)) :=
  ⟨h.owned.remove hf hdone, h.keeps, h.accounts⟩

variable (tenancy : Tenancy) {δ : Type} (addLine : Miner δ) {dir : WalDir} (now : ℕ) {d : Disk}

/-- What the changes for one new segment do, wherever they stop, and that all of them leave
the directory without it. -/
theorem segmentEffects_progress (hapart : Apart arrived) (hstable : Stable c B)
    (H : Owned B arrived d) {s : Segment} (hs : (dir, s) ∈ arrived) {body : Bytes}
    (hbody : B s body) (hfile : ⟨s.id, segmentBytes s.uuid body⟩ ∈ d.wal dir)
    (hnew : d.catalog.isSegmentMerged s.uuid = false) {r : Replay}
    (hr : replaySegment c true (segmentBytes s.uuid body) = .ok r) (state : δ × MergeReport) :
    let rows := (segmentRows tenancy addLine now state r.visited).2
    let effects := segmentEffects dir now s.id s.uuid r rows
    (∀ n, Progress c B arrived d (d.applyAll (effects.take n))) ∧
      (d.applyAll effects).wal dir = (d.wal dir).filter (fun f => f.id != s.id) ∧
      ∀ dir', dir' ≠ dir → (d.applyAll effects).wal dir' = d.wal dir' := by
  intro rows effects
  have hnodup : (rows.map Prod.fst).Nodup := nodup_segmentRows tenancy addLine now state _
  let truncates : List Effect :=
    if r.outcome.truncatedTo.isSome then [.truncate dir s.id r.bytes] else []
  let writes : List Effect := rows.map fun x => .write (filePath x.1 s.id s.uuid) x.2
  let commit : Effect :=
    .commit s.id s.uuid (entriesOf s.id s.uuid rows) (sightingsOf rows) now
  have heffects : effects = (truncates ++ writes) ++ [commit, .remove dir s.id] := rfl
  have hstart : Staged B arrived dir s d d :=
    ⟨H, rfl, fun _ _ => rfl, ⟨body, hbody, hfile⟩, rfl, fun _ _ => rfl⟩
  have hearly : ∀ e ∈ truncates ++ writes, Early B dir s e := by
    intro e he
    rcases List.mem_append.mp he with he | he
    · obtain ⟨r', body', hr', hbytes, hB⟩ := hstable s body hbody
      rw [hr, Except.ok.injEq] at hr'
      subst hr'
      have : e = .truncate dir s.id r.bytes := by
        simp only [truncates] at he
        split at he
        · exact List.mem_singleton.mp he
        · cases he
      exact .inl ⟨body', hB, by rw [this, hbytes]⟩
    · obtain ⟨x, -, rfl⟩ := List.mem_map.mp he
      exact .inr ⟨x.1, x.2, rfl⟩
  -- all writes done, then the commit, then the removal
  have hstaged := hstart.applyAll hapart hs hnew hearly
  set dA := d.applyAll (truncates ++ writes) with hdA
  have hcommit : Progress c B arrived d (dA.apply commit) := by
    refine ⟨hstaged.owned_commit hapart hs hnew hnodup, hstaged.keeps_commit hapart hs hnew hnodup,
      fun hfaithful hacc => hstaged.accounts_commit hapart hs hnew hnodup ?_ ?_ hacc⟩
    · intro x hx
      rw [hdA, Disk.applyAll_append]
      exact get_applyAll_writes hnodup _ hx
    · have hrows := bareRows_segmentRows tenancy addLine now state r.visited
      rw [hfaithful s body hbody r hr] at hrows
      have hrowsEq : rows = (segmentRows tenancy addLine now state s.batches).2 := by
        simp only [rows, hfaithful s body hbody r hr]
      rw [hrowsEq]
      exact hrows
  obtain ⟨body', -, hfile'⟩ := hstaged.file
  have hremove : Progress c B arrived d ((dA.apply commit).apply (.remove dir s.id)) :=
    hcommit.remove c (f := ⟨s.id, segmentBytes s.uuid body'⟩) hfile'
      (.inr ⟨s.uuid, body', rfl, (merged_commit _).mpr (.inl rfl)⟩)
  have hall : d.applyAll effects = (dA.apply commit).apply (.remove dir s.id) := by
    rw [heffects, Disk.applyAll_append]
    rfl
  refine ⟨fun n => ?_, ?_, ?_⟩
  · rw [heffects, List.take_append]
    by_cases hn : n ≤ (truncates ++ writes).length
    · rw [Nat.sub_eq_zero_of_le hn, List.take_zero, List.append_nil]
      exact (hstart.applyAll hapart hs hnew fun e he =>
        hearly e (List.mem_of_mem_take he)).progress
    · rw [List.take_of_length_le (by omega), Disk.applyAll_append, ← hdA]
      obtain ⟨m, hm⟩ : ∃ m, n - (truncates ++ writes).length = m + 1 :=
        ⟨n - (truncates ++ writes).length - 1, by omega⟩
      rw [hm]
      cases m with
      | zero => exact hcommit
      | succ m =>
        rw [List.take_succ_cons, List.take_succ_cons, List.take_nil]
        exact hremove
  · rw [hall, ← hstaged.rest]
    simp [Disk.apply, commit]
  · intro dir' hne
    rw [hall, ← hstaged.other dir' hne]
    simp [Disk.apply, commit, hne]

/-- The same for any log file: it can be dealt with, and then it is gone. -/
theorem mergeSegment_progress (hapart : Apart arrived) (hstable : Stable c B)
    (H : Owned B arrived d) {f : WalFile} (hf : f ∈ d.wal dir) (state : δ × MergeReport) :
    ∃ effects state', mergeSegment c tenancy addLine dir now d.catalog state f
        = .ok (effects, state') ∧
      (∀ n, Progress c B arrived d (d.applyAll (effects.take n))) ∧
      (d.applyAll effects).wal dir = (d.wal dir).filter (fun g => g.id != f.id) ∧
      ∀ dir', dir' ≠ dir → (d.applyAll effects).wal dir' = d.wal dir' := by
  have hrefl : Progress c B arrived d d := ⟨H, Keeps.refl d, fun _ h => h⟩
  -- a file that is only removed
  have hgone : isIncompleteHeader f.bytes = true ∨
      (∃ u body, f.bytes = segmentBytes u body ∧ d.catalog.isSegmentMerged u = true) →
      (∀ n, Progress c B arrived d (d.applyAll (([.remove dir f.id] : List Effect).take n))) ∧
        (d.applyAll [.remove dir f.id]).wal dir = (d.wal dir).filter (fun g => g.id != f.id) ∧
        ∀ dir', dir' ≠ dir → (d.applyAll [.remove dir f.id]).wal dir' = d.wal dir' := by
    intro hdone
    refine ⟨fun n => ?_, by simp [Disk.applyAll, Disk.apply], fun dir' hne => by
      simp [Disk.applyAll, Disk.apply, hne]⟩
    cases n with
    | zero => exact hrefl
    | succ n =>
      rw [List.take_succ_cons, List.take_nil]
      exact hrefl.remove c hf hdone
  rcases H.files dir f hf with hinc | ⟨s, body, hs, hbody, rfl⟩
  · obtain ⟨state', hmerge⟩ := mergeSegment_headerless c tenancy addLine dir now d.catalog state
      hinc
    exact ⟨_, state', hmerge, hgone (.inl hinc)⟩
  · cases hmerged : d.catalog.isSegmentMerged s.uuid with
    | true =>
      obtain ⟨state', hmerge⟩ := mergeSegment_merged c tenancy addLine dir now d.catalog state s.id
        body hmerged
      exact ⟨_, state', hmerge, hgone (.inr ⟨s.uuid, body, rfl, hmerged⟩)⟩
    | false =>
      obtain ⟨r, -, hr, -, -⟩ := hstable s body hbody
      obtain ⟨state₁, state', hmerge⟩ := mergeSegment_new tenancy addLine dir now d.catalog state
        s.id hmerged hr
      exact ⟨_, state', hmerge,
        segmentEffects_progress tenancy addLine now hapart hstable H hs hbody hf hmerged hr state₁⟩

/-- The loop gets through all its files, and keeps what it must wherever it stops. -/
theorem mergeLoop_progress (hapart : Apart arrived) (hstable : Stable c B) {fs : List WalFile}
    (H : Owned B arrived d) (hfs : ∀ f ∈ fs, f ∈ d.wal dir) (hids : (fs.map WalFile.id).Nodup)
    (state : δ × MergeReport) :
    ∃ effects state', mergeLoop c tenancy addLine dir now fs d state = (effects, .ok state') ∧
      (∀ n, Progress c B arrived d (d.applyAll (effects.take n))) ∧
      (d.applyAll effects).wal dir
        = (d.wal dir).filter (fun g => !(fs.map WalFile.id).contains g.id) ∧
      ∀ dir', dir' ≠ dir → (d.applyAll effects).wal dir' = d.wal dir' := by
  induction fs generalizing d state with
  | nil =>
    refine ⟨[], state, rfl, fun n => ?_, ?_, fun dir' _ => rfl⟩
    · rw [List.take_nil]
      exact ⟨H, Keeps.refl d, fun _ h => h⟩
    · simp [Disk.applyAll]
  | cons f fs ih =>
    rw [List.map_cons, List.nodup_cons] at hids
    obtain ⟨effects, state₁, hseg, hprog, hwal, hother⟩ :=
      mergeSegment_progress tenancy addLine now hapart hstable H (hfs f List.mem_cons_self) state
    have hdone : Progress c B arrived d (d.applyAll effects) := by
      have := hprog effects.length
      rwa [List.take_length] at this
    -- the other files are where they were
    have hfs' : ∀ g ∈ fs, g ∈ (d.applyAll effects).wal dir := by
      intro g hg
      rw [hwal]
      refine List.mem_filter.mpr ⟨hfs g (List.mem_cons_of_mem _ hg), ?_⟩
      rw [bne_iff_ne]
      intro hid
      exact hids.1 (hid ▸ List.mem_map_of_mem hg)
    obtain ⟨rest, state', hloop, hprog', hwal', hother'⟩ := ih hdone.owned hfs' hids.2 state₁
    refine ⟨effects ++ rest, state', ?_, fun n => ?_, ?_, ?_⟩
    · rw [mergeLoop, hseg]
      simp only [hloop]
    · rw [List.take_append, Disk.applyAll_append]
      by_cases hn : n ≤ effects.length
      · rw [Nat.sub_eq_zero_of_le hn, List.take_zero]
        exact hprog n
      · rw [List.take_of_length_le (by omega)]
        exact hdone.trans (hprog' _)
    · rw [Disk.applyAll_append, hwal', hwal, List.filter_filter]
      apply List.filter_congr
      intro g _
      by_cases hid : g.id = f.id <;> simp [hid]
    · intro dir' hne
      rw [Disk.applyAll_append, hother' dir' hne, hother dir' hne]

/-- A run takes every segment below the active one, leaves the others as they are, and keeps
what it must wherever it stops. -/
theorem mergeAll_progress (hapart : Apart arrived) (hstable : Stable c B) (H : Owned B arrived d)
    (dir : WalDir) (active : Option ℕ) (drain : δ) :
    ∃ effects state', mergeAll c tenancy addLine dir active now d drain = (effects, .ok state') ∧
      (∀ n, Progress c B arrived d (d.applyAll (effects.take n))) ∧
      (d.applyAll effects).wal dir = (d.wal dir).filter (fun f => skipped active f.id) ∧
      ∀ dir', dir' ≠ dir → (d.applyAll effects).wal dir' = d.wal dir' := by
  have hperm : (listSegments (d.wal dir)).Perm (d.wal dir) := Lists.perm_sortByKey _ _
  have hids : (((listSegments (d.wal dir)).filter fun f => !skipped active f.id).map
      WalFile.id).Nodup :=
    ((hperm.map WalFile.id).nodup_iff.mpr (H.ids dir)).sublist (List.filter_sublist.map _)
  obtain ⟨effects, state', hloop, hprog, hwal, hother⟩ :=
    mergeLoop_progress tenancy addLine now hapart hstable H
      (fun f hf => hperm.mem_iff.mp (List.mem_of_mem_filter hf)) hids (drain, MergeReport.zero)
  refine ⟨effects, state', hloop, hprog, ?_, hother⟩
  rw [hwal]
  apply List.filter_congr
  intro g hg
  cases hskip : skipped active g.id with
  | true =>
    -- an id that is skipped is the id of no file the run takes
    simp only [Bool.not_eq_true', List.contains_eq_mem, decide_eq_false_iff_not, List.mem_map,
      List.mem_filter, not_exists, not_and]
    rintro f ⟨-, hf⟩ hid
    rw [hid, hskip] at hf
    cases hf
  | false =>
    simp only [Bool.not_eq_false', List.contains_eq_mem, decide_eq_true_eq]
    exact List.mem_map_of_mem (List.mem_filter.mpr ⟨hperm.mem_iff.mpr hg, by simp [hskip]⟩)

end

end LogLess.Store
