import LogLess.Agent.Process
import LogLess.Store.MergeRuns
import LogLess.Wal.Postcard

/-!
# Exactly once from the log to the store

What every history of arriving segments and merges, complete or crashed, does to the
committed files.
-/

namespace LogLess.Store

open Wal Frames

section

variable (c : Codec) (tenancy : Tenancy) {δ : Type} (addLine : Miner δ)

/-- All segments are apart, and everything on the disk is owned. -/
def World.Inv (B : Segment → Bytes → Prop) (w : World) : Prop :=
  Apart w.arrived ∧ Owned B w.arrived w.disk

theorem World.inv_init (B : Segment → Bytes → Prop) : World.init.Inv B :=
  ⟨List.Pairwise.nil,
    { files := by simp [World.init]
      ids := by simp [World.init]
      owner := by simp [World.init, Catalog.paths, Catalog.empty]
      present := by simp [World.init]
      known := by simp [World.init, Catalog.isSegmentMerged, Catalog.empty] }⟩

variable {c tenancy addLine} {B : Segment → Bytes → Prop} {w : World}

theorem Disk.free_iff {d : Disk} {dir : WalDir} {id : ℕ} :
    d.free dir id = true ↔ ∀ f ∈ d.wal dir, f.id ≠ id := by
  simp [Disk.free]

/-- A file added under a free id. -/
theorem nodup_addFile {d : Disk} {dir : WalDir} {f : WalFile}
    (hids : ∀ dir', ((d.wal dir').map WalFile.id).Nodup) (hfree : d.free dir f.id = true)
    (dir' : WalDir) : (((d.addFile dir f).wal dir').map WalFile.id).Nodup := by
  by_cases hdir : dir' = dir
  · subst hdir
    have hwal : (d.addFile dir' f).wal dir' = d.wal dir' ++ [f] := by simp [Disk.addFile]
    rw [hwal, List.map_append, List.nodup_append]
    refine ⟨hids dir', by simp, ?_⟩
    intro a ha b hb
    obtain ⟨g, hg, rfl⟩ := List.mem_map.mp ha
    have hb' : b = f.id := by simpa using hb
    rw [hb']
    exact Disk.free_iff.mp hfree g hg
  · have hwal : (d.addFile dir f).wal dir' = d.wal dir' := by simp [Disk.addFile, hdir]
    rw [hwal]
    exact hids dir'

theorem mem_addFile {d : Disk} {dir dir' : WalDir} {f g : WalFile} :
    g ∈ (d.addFile dir f).wal dir' ↔ g ∈ d.wal dir' ∨ (dir' = dir ∧ g = f) := by
  by_cases hdir : dir' = dir
  · subst hdir
    simp [Disk.addFile]
  · simp [Disk.addFile, hdir]

/-- A segment that arrives with a body that `B` allows. -/
theorem Owned.arrive {arrived : List (WalDir × Segment)} {d : Disk} (H : Owned B arrived d)
    {dir : WalDir} {s : Segment} {body : Bytes} (hbody : B s body)
    (hfree : d.free dir s.id = true) :
    Owned B (arrived ++ [(dir, s)]) (d.addFile dir ⟨s.id, segmentBytes s.uuid body⟩) := by
  have hmono : ∀ a ∈ arrived, a ∈ arrived ++ [(dir, s)] := fun a ha => List.mem_append_left _ ha
  refine ⟨?_, nodup_addFile H.ids hfree, ?_, ?_, ?_⟩
  · intro dir' f hf
    rcases mem_addFile.mp hf with hf | ⟨rfl, rfl⟩
    · rcases H.files dir' f hf with hinc | ⟨t, body, ht, hB, rfl⟩
      · exact .inl hinc
      · exact .inr ⟨t, body, hmono _ ht, hB, rfl⟩
    · exact .inr ⟨s, body, by simp, hbody, rfl⟩
  · intro p hp
    obtain ⟨a, ha, hmerged, key, rfl⟩ := H.owner p hp
    exact ⟨a, hmono a ha, hmerged, key, rfl⟩
  · intro a ha
    rcases List.mem_append.mp ha with ha | ha
    · rcases H.present a ha with hmerged | ⟨body, hB, hfile⟩
      · exact .inl hmerged
      · exact .inr ⟨body, hB, mem_addFile.mpr (.inl hfile)⟩
    · rw [List.mem_singleton.mp ha]
      exact .inr ⟨body, hbody, mem_addFile.mpr (.inr ⟨rfl, rfl⟩)⟩
  · intro u hu
    obtain ⟨a, ha, huuid⟩ := H.known u hu
    exact ⟨a, hmono a ha, huuid⟩

theorem Owned.headerless {arrived : List (WalDir × Segment)} {d : Disk} (H : Owned B arrived d)
    {dir : WalDir} {id : ℕ} {bytes : Bytes} (hfree : d.free dir id = true)
    (hinc : isIncompleteHeader bytes = true) :
    Owned B arrived (d.addFile dir ⟨id, bytes⟩) := by
  refine ⟨?_, nodup_addFile H.ids hfree, H.owner, ?_, H.known⟩
  · intro dir' f hf
    rcases mem_addFile.mp hf with hf | ⟨rfl, rfl⟩
    · exact H.files dir' f hf
    · exact .inl hinc
  · intro a ha
    rcases H.present a ha with hmerged | ⟨body, hB, hfile⟩
    · exact .inl hmerged
    · exact .inr ⟨body, hB, mem_addFile.mpr (.inl hfile)⟩

theorem Apart.concat {arrived : List (WalDir × Segment)} (h : Apart arrived) {dir : WalDir}
    {s : Segment} (hnew : ∀ a ∈ arrived, a.2.apart s = true) : Apart (arrived ++ [(dir, s)]) := by
  unfold Apart
  rw [List.pairwise_append]
  refine ⟨h, List.pairwise_singleton _ _, ?_⟩
  intro a ha b hb
  rw [List.mem_singleton.mp hb]
  exact hnew a ha

theorem World.Inv.arrive (h : w.Inv B) {dir : WalDir} {s : Segment} (hbody : B s (s.body c))
    (hok : w.ok (.arrive dir s : Event δ) = true) :
    (w.step c tenancy addLine (.arrive dir s)).Inv B := by
  obtain ⟨hapart, H⟩ := h
  simp only [World.ok, Bool.and_eq_true, List.all_eq_true] at hok
  exact ⟨hapart.concat hok.2, H.arrive hbody hok.1⟩

theorem World.Inv.headerless (h : w.Inv B) {dir : WalDir} {id : ℕ} {bytes : Bytes}
    (hok : w.ok (.headerless dir id bytes : Event δ) = true) :
    (w.step c tenancy addLine (.headerless dir id bytes)).Inv B := by
  obtain ⟨hapart, H⟩ := h
  simp only [World.ok, Bool.and_eq_true] at hok
  exact ⟨hapart, H.headerless hok.1 hok.2⟩

/-- A run of the merge that stops anywhere is progress. -/
theorem World.Inv.merge (h : w.Inv B) (hstable : Stable c B) (tenancy : Tenancy)
    (addLine : Miner δ) (dir : WalDir) (active : Option ℕ) (now : ℕ) (drain : δ)
    (stop : Option ℕ) :
    Progress c B w.arrived w.disk
      (w.step c tenancy addLine (.merge dir active now drain stop)).disk := by
  obtain ⟨effects, state', hmerge, hprog, -, -⟩ :=
    mergeAll_progress tenancy addLine now h.1 hstable h.2 dir active drain
  simp only [World.step, hmerge]
  cases stop with
  | none =>
    have := hprog effects.length
    rwa [List.take_length] at this
  | some n => exact hprog n

/-- Every step keeps the invariant and the committed files, if the segments that arrive have
bodies that `B` allows. -/
theorem World.Inv.step (h : w.Inv B) (hstable : Stable c B) {e : Event δ} (hok : w.ok e = true)
    (hbody : ∀ dir s, e = .arrive dir s → B s (s.body c)) :
    (w.step c tenancy addLine e).Inv B ∧ Keeps w.disk (w.step c tenancy addLine e).disk := by
  cases e with
  | arrive dir s => exact ⟨h.arrive (hbody dir s rfl) hok, Keeps.refl _⟩
  | headerless dir id bytes => exact ⟨h.headerless hok, Keeps.refl _⟩
  | merge dir active now drain stop =>
    have hprog := h.merge hstable tenancy addLine dir active now drain stop
    exact ⟨⟨h.1, hprog.owned⟩, hprog.keeps⟩

end

/-! ## Paths -/

section

variable (c : Codec) (tenancy : Tenancy) {δ : Type} (addLine : Miner δ)

theorem stable_any : Stable c fun _ _ => True := by
  intro s body _
  obtain ⟨r, body', hr, hbytes⟩ := replaySegment_segmentBytes (c := c) s.uuid body
  exact ⟨r, body', hr, hbytes, trivial⟩

theorem take_six_nowV7 (ms : ℕ) (rest : List UInt8) (h : rest.length = 10) :
    (Uuid.nowV7 ms rest h).bytes.take 6 = timestampBytes ms := List.take_left' rfl

/-- Two segments are written to different files of a partition exactly if they differ in
their id or in the millisecond they were made in. Along every history of segments that do,
in both log directories, and of merges, complete or crashed, the rows of a committed file
are never replaced. -/
theorem committed_rows_kept :
    (∀ (key : PartitionKey) (i j ms ms' : ℕ) (rest rest' : List UInt8) (h : rest.length = 10)
      (h' : rest'.length = 10), ms < 2 ^ 48 → ms' < 2 ^ 48 →
      (filePath key i (.nowV7 ms rest h) ≠ filePath key j (.nowV7 ms' rest' h') ↔
        i ≠ j ∨ ms ≠ ms')) ∧
    ∀ (es : List (Event δ)) (e : Event δ),
      Runs.Meets (World.step c tenancy addLine) (fun w e => w.ok e = true) .init (es ++ [e]) →
      Keeps (Runs.run (World.step c tenancy addLine) .init es).disk
        (Runs.run (World.step c tenancy addLine) .init (es ++ [e])).disk := by
  constructor
  · intro key i j ms ms' rest rest' h h' hms hms'
    rw [Ne, filePath_inj, take_six_nowV7, take_six_nowV7, timestampBytes_inj hms hms']
    tauto
  · intro es e hmeets
    have hstable : Stable c fun _ _ => True := stable_any c
    have hinv : (Runs.run (World.step c tenancy addLine) .init es).Inv fun _ _ => True :=
      hmeets.append_left.invariant
        (fun w e hw hok => (hw.step hstable hok fun _ _ _ => trivial).1) (World.inv_init _)
    rw [Runs.run_concat]
    exact (hinv.step hstable hmeets.append_right.1 fun _ _ _ => trivial).2

/-! ## Records -/

/-- The frames of the segment are those its writer wrote, and what follows them is not a
frame. -/
structure Segment.WellFormed (s : Segment) : Prop where
  inverts : c.Inverts s.batches
  lengths : ∀ b ∈ s.batches, (c.toStdvec b).length < 2 ^ 32
  tail : readFrame c.hash okLen c.fromBytes s.tail = none

/-- A body with all the frames of the segment, which the reader accepts. -/
def FrameBody (s : Segment) (body : Bytes) : Prop :=
  c.Inverts s.batches ∧ (∀ b ∈ s.batches, (c.toStdvec b).length < 2 ^ 32) ∧
    (∀ b ∈ s.batches, c.fits b = true) ∧
    ∃ tail, readFrame c.hash okLen c.fromBytes tail = none ∧ body = c.frames s.batches ++ tail

theorem stable_frameBody : Stable c (FrameBody c) := by
  rintro s body ⟨hinv, hlen, hfits, tail, htail, rfl⟩
  obtain ⟨r, hr, -, hbytes⟩ := replaySegment_fits s.uuid hinv hlen hfits htail
  exact ⟨r, c.frames s.batches, hr, hbytes, hinv, hlen, hfits, [], readFrame_nil,
    (List.append_nil _).symm⟩

theorem faithful_frameBody : Faithful c (FrameBody c) := by
  rintro s body ⟨hinv, hlen, hfits, tail, htail, rfl⟩ r hr
  obtain ⟨r', hr', hvisited, -⟩ := replaySegment_fits s.uuid hinv hlen hfits htail
  rw [hr, Except.ok.injEq] at hr'
  rw [hr', hvisited]

/-- Segments that arrive are well formed, under a free id, apart from all earlier ones, and
each of their batches encodes to at most `MAX_FRAME_BYTES` bytes. -/
def World.Ok (w : World) (e : Event δ) : Prop :=
  w.ok e = true ∧ ∀ dir s, e = .arrive dir s →
    s.WellFormed c ∧ ∀ b ∈ s.batches, (c.toStdvec b).length ≤ maxFrameBytes

variable {c tenancy addLine}

theorem World.Ok.frameBody {w : World} {e : Event δ} (h : w.Ok c e) (dir : WalDir) (s : Segment)
    (he : e = .arrive dir s) : FrameBody c s (s.body c) := by
  obtain ⟨hwf, hfits⟩ := h.2 dir s he
  exact ⟨hwf.inverts, hwf.lengths, fun b hb => by simpa [Codec.fits] using hfits b hb, s.tail,
    hwf.tail, rfl⟩

/-- Every step keeps the committed rows and the merged segments together. -/
theorem World.Inv.accounts {w : World} (h : w.Inv (FrameBody c)) {e : Event δ} (hok : w.Ok c e)
    (hacc : w.disk.Accounts w.arrived) :
    (w.step c tenancy addLine e).disk.Accounts (w.step c tenancy addLine e).arrived := by
  cases e with
  | arrive dir s =>
    -- a segment that arrives has not been merged
    have hnew : w.disk.catalog.isSegmentMerged s.uuid = false := by
      rw [Bool.eq_false_iff]
      intro hmerged
      obtain ⟨a, ha, huuid⟩ := h.2.known _ hmerged
      have hok := hok.1
      simp only [World.ok, Bool.and_eq_true, List.all_eq_true] at hok
      have := hok.2 a ha
      simp [Segment.apart, huuid] at this
    have hmerged : (w.step c tenancy addLine (.arrive dir s)).disk.mergedRecords
        (w.arrived ++ [(dir, s)]) = w.disk.mergedRecords w.arrived := by
      simp [Disk.mergedRecords, World.step, Disk.addFile, List.filter_append, hnew]
    show List.Perm _ _
    rw [show (w.step c tenancy addLine (.arrive dir s)).arrived = w.arrived ++ [(dir, s)] from rfl,
      hmerged]
    exact hacc
  | headerless dir id bytes => exact hacc
  | merge dir active now drain stop =>
    exact (h.merge (stable_frameBody c) tenancy addLine dir active now drain stop).accounts
      (faithful_frameBody c) hacc

variable (c tenancy addLine)

/-- **No record is lost or duplicated on its way to the store.** Take any history of
segments that arrive, and of merges that end or crash, in which no batch is longer than the
reader's limit. A further merge gets to its end; the rows of the committed files are then
the records of the merged segments, each once; every segment of the directory below the
active one is among these and gone; and every other segment is as it was. -/
theorem merge_exactly_once (es : List (Event δ))
    (hok : Runs.Meets (World.step c tenancy addLine) (World.Ok c) .init es) (dir : WalDir)
    (active : Option ℕ) (now : ℕ) (drain : δ) :
    let w := Runs.run (World.step c tenancy addLine) .init es
    let w' := w.step c tenancy addLine (.merge dir active now drain none)
    (∃ report, (mergeAll c tenancy addLine dir active now w.disk drain).2 = .ok report) ∧
      (w'.disk.committed.map bare).Perm (w'.disk.mergedRecords w'.arrived) ∧
      (∀ s, (dir, s) ∈ w'.arrived → skipped active s.id = false →
        w'.disk.catalog.isSegmentMerged s.uuid = true) ∧
      w'.disk.wal dir = (w.disk.wal dir).filter (fun f => skipped active f.id) ∧
      ∀ dir', dir' ≠ dir → w'.disk.wal dir' = w.disk.wal dir' := by
  intro w w'
  have hkeep : ∀ (w : World) (e : Event δ), (w.Inv (FrameBody c) ∧ w.disk.Accounts w.arrived) →
      w.Ok c e → (w.step c tenancy addLine e).Inv (FrameBody c) ∧
        (w.step c tenancy addLine e).disk.Accounts (w.step c tenancy addLine e).arrived := by
    rintro w e ⟨hw, hacc⟩ hstep
    exact ⟨(hw.step (stable_frameBody c) hstep.1 hstep.frameBody).1, hw.accounts hstep hacc⟩
  have hinv : w.Inv (FrameBody c) ∧ w.disk.Accounts w.arrived :=
    hok.invariant hkeep ⟨World.inv_init _, List.Perm.refl _⟩
  obtain ⟨effects, state', hmerge, hprog, hwal, hother⟩ :=
    mergeAll_progress tenancy addLine now hinv.1.1 (stable_frameBody c) hinv.1.2 dir active drain
  have hdisk : w'.disk = w.disk.applyAll effects := by
    simp only [w', World.step, hmerge, done]
  have hdone : Progress c (FrameBody c) w.arrived w.disk w'.disk := by
    have := hprog effects.length
    rwa [List.take_length, ← hdisk] at this
  refine ⟨⟨state', by rw [hmerge]⟩, hdone.accounts (faithful_frameBody c) hinv.2, ?_, ?_, ?_⟩
  · -- not in the directory any more, so merged
    intro s hs hskip
    rcases hdone.owned.present (dir, s) hs with hmerged | ⟨body, -, hfile⟩
    · exact hmerged
    · exfalso
      rw [hdisk, hwal] at hfile
      have := (List.mem_filter.mp hfile).2
      simp only [hskip] at this
      cases this
  · rw [hdisk]
    exact hwal
  · intro dir' hne
    rw [hdisk]
    exact hother dir' hne

end

/-! ## Examples -/

/-- A segment made in millisecond 1, with one record; `x` is the last byte of its uuid. -/
def oneRecord (id : ℕ) (x : UInt8) (body : Text) : Segment where
  id := id
  uuid := .nowV7 1 (List.replicate 9 0 ++ [x]) (length_zeros_concat x)
  batches := [[.new (.nowV7 1 (List.replicate 10 0) length_zeros) 1 .INFO body]]
  tail := []

def exampleStep : World → Event Drain → World :=
  World.step Postcard.codec Agent.plainSettings.tenancy mine

/-- A merge with a new miner. -/
def mergeNow (dir : WalDir) (stop : Option ℕ) : Event Drain :=
  .merge dir none 0 (.new .default) stop

theorem committed_rows_kept_late :
    let es : List (Event Drain) :=
      [.arrive .main (oneRecord 1 0 ['a']), mergeNow .main none,
        .arrive .late (oneRecord 2 1 ['b'])]
    Keeps (Runs.run exampleStep .init es).disk
      (Runs.run exampleStep .init (es ++ [mergeNow .late none])).disk := by
  exact (committed_rows_kept Postcard.codec Agent.plainSettings.tenancy mine).2 _ _
    (by decide +kernel)

/-- The first segments of the main and of the late directory, made in one millisecond: the
late merge replaces the rows that the main merge had committed. -/
theorem late_merge_replaces_rows :
    let main := oneRecord 1 0 ['a']
    let late := oneRecord 1 1 ['b']
    let es : List (Event Drain) :=
      [.arrive .main main, .arrive .late late, mergeNow .main none]
    let before := (Runs.run exampleStep .init es).disk
    let after := (Runs.run exampleStep .init (es ++ [mergeNow .late none])).disk
    main.uuid ≠ late.uuid ∧ before.committed.map bare = main.records ∧
      after.committed.map bare = late.records ∧ ¬ Keeps before after := by
  intro main late es before after
  have hbefore : before.committed.map bare = main.records := by decide +kernel
  have hafter : after.committed.map bare = late.records := by decide +kernel
  refine ⟨by decide, hbefore, hafter, fun h => ?_⟩
  have hpaths : before.catalog.paths = after.catalog.paths := by decide +kernel
  have hsame : after.committed.map bare = before.committed.map bare := by
    rw [committed_of_keeps h hpaths.symm]
  rw [hbefore, hafter] at hsame
  exact absurd hsame (by decide)

theorem oneRecord_wellFormed (id : ℕ) (x : UInt8) :
    (oneRecord id x ['a']).WellFormed Postcard.codec := by
  have hrange : Postcard.codec.Inverts (oneRecord id x ['a']).batches := by
    refine Postcard.codec_inverts fun b hb => ?_
    obtain rfl := List.mem_singleton.mp hb
    refine ⟨by decide, fun r hr => ?_⟩
    obtain rfl := List.mem_singleton.mp hr
    exact Postcard.inRange_new _ _ (by decide) (by decide)
  refine ⟨hrange, ?_, readFrame_nil⟩
  intro b hb
  obtain rfl := List.mem_singleton.mp hb
  decide +kernel

/-- A merge that crashes after it has written its file, and one that ends. -/
theorem merge_exactly_once_crashed :
    let es : List (Event Drain) :=
      [.arrive .main (oneRecord 1 0 ['a']), .headerless .main 2 [], mergeNow .main (some 1)]
    let w := Runs.run exampleStep .init es
    let w' := exampleStep w (mergeNow .main none)
    (w'.disk.committed.map bare).Perm (w'.disk.mergedRecords w'.arrived) ∧
      w.disk.committed = [] ∧ w'.disk.committed.map bare = (oneRecord 1 0 ['a']).records ∧
      w'.disk.wal .main = [] := by
  intro es w w'
  have hmeets : Runs.Meets exampleStep (World.Ok Postcard.codec) .init es := by
    refine ⟨⟨by decide +kernel, ?_⟩, ⟨by decide +kernel, ?_⟩, ⟨rfl, ?_⟩, trivial⟩
    · rintro dir s heq
      obtain ⟨rfl, rfl⟩ := Event.arrive.inj heq
      refine ⟨oneRecord_wellFormed 1 0, fun b hb => ?_⟩
      obtain rfl := List.mem_singleton.mp hb
      decide +kernel
    · intro dir s heq
      cases heq
    · intro dir s heq
      cases heq
  have h := merge_exactly_once Postcard.codec Agent.plainSettings.tenancy mine es hmeets
    .main none 0 (.new .default)
  exact ⟨h.2.1, by decide +kernel, by decide +kernel, by decide +kernel⟩

/-- A merge of one segment, none of whose frames can be read: it is committed without a file
and removed. -/
theorem merge_unreadable {c : Codec} (tenancy : Tenancy) {δ : Type} (addLine : Miner δ)
    {s : Segment} (hs : s.WellFormed c) (hread : s.batches.takeWhile c.fits = []) (now : ℕ)
    (drain : δ) :
    let w := Runs.run (World.step c tenancy addLine) .init
      [.arrive .main s, .merge .main none now drain none]
    w.disk.committed = [] ∧ w.disk.wal .main = [] := by
  intro w
  set w₁ : World := World.step c tenancy addLine .init (.arrive .main s) with hw₁
  have hwal : w₁.disk.wal .main = [⟨s.id, segmentBytes s.uuid (s.body c)⟩] := by
    simp [hw₁, World.step, World.init, Disk.addFile]
  have hcat : w₁.disk.catalog = .empty := rfl
  obtain ⟨r, hr, hvisited, -⟩ :=
    replaySegment_frames s.uuid hs.inverts hs.lengths hs.tail true
  change replaySegment c true (segmentBytes s.uuid (s.body c)) = _ at hr
  rw [hread] at hvisited
  obtain ⟨state₁, state', hmerge⟩ := mergeSegment_new tenancy addLine .main now .empty
    (drain, .zero) s.id rfl hr
  have hrows : (segmentRows tenancy addLine now state₁ r.visited).2 = [] := by
    rw [hvisited]
    rfl
  have hfiles : (listSegments (w₁.disk.wal .main)).filter (fun f => !skipped none f.id)
      = [⟨s.id, segmentBytes s.uuid (s.body c)⟩] := by
    rw [hwal]
    rfl
  have heffects : (mergeAll c tenancy addLine .main none now w₁.disk drain).1
      = segmentEffects .main now s.id s.uuid r [] := by
    rw [mergeAll, hfiles, mergeLoop, hcat, hmerge, hrows]
    simp [mergeLoop]
  have hdisk : w.disk = w₁.disk.applyAll (segmentEffects .main now s.id s.uuid r []) := by
    show (w₁.step c tenancy addLine (.merge .main none now drain none)).disk = _
    simp only [World.step, heffects, done]
  rw [hdisk, segmentEffects]
  by_cases hdamaged : r.outcome.truncatedTo.isSome = true
  · simp [hdamaged, Disk.applyAll, Disk.apply, Disk.committed, Catalog.paths, Catalog.commitMerge,
      entriesOf, hcat, Catalog.empty, hwal]
  · simp [hdamaged, Disk.applyAll, Disk.apply, Disk.committed, Catalog.paths, Catalog.commitMerge,
      entriesOf, hcat, Catalog.empty, hwal]

/-- A segment with one batch, longer than the reader's limit. -/
def oversized : Segment where
  id := 1
  uuid := .nowV7 1 (List.replicate 10 0) length_zeros
  batches := [lettersBatch (maxFrameBytes + 1)]
  tail := []

theorem merge_drops_oversized_batch :
    let w := Runs.run exampleStep .init [.arrive .main oversized, mergeNow .main none]
    oversized.WellFormed Postcard.codec ∧ oversized.records.length = 1 ∧
      w.disk.committed = [] ∧ w.disk.wal .main = [] := by
  have hlen := length_lettersBatch (maxFrameBytes + 1)
  have hmax : maxFrameBytes = 268435456 := rfl
  have hwf : oversized.WellFormed Postcard.codec := by
    refine ⟨inverts_lettersBatch (by omega), fun b hb => ?_, readFrame_nil⟩
    obtain rfl := List.mem_singleton.mp hb
    omega
  have hfits : Postcard.codec.fits (lettersBatch (maxFrameBytes + 1)) = false := by
    simp only [Codec.fits, decide_eq_false_iff_not]
    omega
  have hread : oversized.batches.takeWhile Postcard.codec.fits = [] := by
    rw [oversized, List.takeWhile_cons_of_neg]
    simp [hfits]
  have hrecords : oversized.records.length = 1 := by
    simp [Segment.records, oversized, lettersBatch]
  have hmerged := merge_unreadable Agent.plainSettings.tenancy mine hwf hread 0 (.new .default)
  generalize oversized = s at hwf hrecords hmerged
  exact ⟨hwf, hrecords, hmerged⟩

end LogLess.Store
