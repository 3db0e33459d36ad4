import LogLess.Store.Compact

/-!
# Runs of maintenance passes

A file of the store belongs to a segment of the log or is the output of a compaction. The rows
of the outputs and of the files of merged segments are the records of the merged segments, each
once, as long as three things do not happen: a crash between the writing of an output and the
last unlink of its inputs, a compaction that takes a file of a segment that is not merged yet,
and an output written over a file.
-/

namespace LogLess.Store

open Wal Frames

/-! ## What a replay visits -/

section

variable {c : Codec}

/-- A replay of the body visits the batches of the segment. -/
def Replays (c : Codec) (s : Segment) (body : Bytes) : Prop :=
  ∃ r, replaySegment c true (segmentBytes s.uuid body) = .ok r ∧ r.visited = s.batches

theorem replaySegment_eq (u : Uuid) (body : Bytes) :
    ∃ r, replaySegment c true (segmentBytes u body) = .ok r ∧
      r.visited = (scan c.hash okLen c.fromBytes body).map Prod.snd ∧
      (r.bytes = segmentBytes u body ∨ r.bytes = segmentBytes u (body.take
        ((scan c.hash okLen c.fromBytes body).map fun x => 8 + x.1.length).sum)) := by
  rw [replaySegment, readHeader_segmentBytes]
  refine ⟨_, rfl, rfl, ?_⟩
  simp only
  split
  · right
    rw [segmentBytes, List.take_append, length_header,
      List.take_of_length_le (by rw [length_header]; omega), Nat.add_sub_cancel_left]
    rfl
  · exact .inl rfl

/-- Cutting off what a replay does not read changes nothing for the next one. -/
theorem stable_replays : Stable c (Replays c) := by
  rintro s body ⟨r, hr, hvisited⟩
  obtain ⟨r', hr', hscan, hbytes⟩ := replaySegment_eq (c := c) s.uuid body
  rw [hr, Except.ok.injEq] at hr'
  subst hr'
  rcases hbytes with hbytes | hbytes
  · exact ⟨r, body, hr, hbytes, r, hr, hvisited⟩
  · refine ⟨r, _, hr, hbytes, ?_⟩
    obtain ⟨r'', hr'', hscan', -⟩ := replaySegment_eq (c := c) s.uuid (body.take
      ((scan c.hash okLen c.fromBytes body).map fun x => 8 + x.1.length).sum)
    refine ⟨r'', hr'', ?_⟩
    rw [hscan', scan_take, ← hscan, hvisited]

theorem replays_visited (id : ℕ) (u : Uuid) (body : Bytes) :
    Replays c ⟨id, u, visitedBatches c u body, []⟩ body := by
  obtain ⟨r, hr, -, -⟩ := replaySegment_eq (c := c) u body
  refine ⟨r, hr, ?_⟩
  simp only [visitedBatches, hr]

end

/-! ## The log -/

/-- The same log files and the same merged segments. -/
structure SameLogs (d g : Disk) : Prop where
  wal : g.wal = d.wal
  merged : g.catalog.mergedSegments = d.catalog.mergedSegments

/-- The log files belong to the segments that have arrived, whatever is in the store. -/
def Logged (c : Codec) (arrived : List (WalDir × Segment)) (d : Disk) : Prop :=
  ∃ g, Owned (Replays c) arrived g ∧ SameLogs d g

section

variable {c : Codec} {tenancy : Tenancy} {δ : Type} {addLine : Miner δ} {d g : Disk}
  {arrived : List (WalDir × Segment)}

theorem SameLogs.isSegmentMerged (h : SameLogs d g) (u : Uuid) :
    g.catalog.isSegmentMerged u = d.catalog.isSegmentMerged u := by
  rw [Catalog.isSegmentMerged, h.merged, Catalog.isSegmentMerged]

theorem mergedSegments_commitMerge (cat : Catalog) (id : ℕ) (uuid : Uuid) (files : List FileEntry)
    (ss : List TemplateSighting) (now : ℕ) :
    (cat.commitMerge id uuid files ss now).mergedSegments
      = Assoc.insert cat.mergedSegments uuid (id, now) := by
  simp [Catalog.commitMerge]

theorem SameLogs.apply (h : SameLogs d g) (e : Effect) : SameLogs (d.apply e) (g.apply e) := by
  cases e with
  | truncate dir id bytes => exact ⟨by simp [Disk.apply, h.wal], h.merged⟩
  | write path rows => exact ⟨h.wal, h.merged⟩
  | commit id uuid files ss now =>
    refine ⟨h.wal, ?_⟩
    simp only [Disk.apply, mergedSegments_commitMerge, h.merged]
  | remove dir id => exact ⟨by simp [Disk.apply, h.wal], h.merged⟩

theorem SameLogs.applyAll (h : SameLogs d g) (es : List Effect) :
    SameLogs (d.applyAll es) (g.applyAll es) := by
  induction es generalizing d g with
  | nil => exact h
  | cons e es ih => exact ih (h.apply e)

/-- A merge looks at the log files and the merged segments only. -/
theorem SameLogs.mergeLoop_eq (h : SameLogs d g) (dir : WalDir) (now : ℕ) (fs : List WalFile)
    (state : δ × MergeReport) :
    mergeLoop c tenancy addLine dir now fs g state
      = mergeLoop c tenancy addLine dir now fs d state := by
  induction fs generalizing d g state with
  | nil => rfl
  | cons f fs ih =>
    have hsegment : mergeSegment c tenancy addLine dir now g.catalog state f
        = mergeSegment c tenancy addLine dir now d.catalog state f := by
      simp only [mergeSegment, h.isSegmentMerged]
    unfold mergeLoop
    rw [hsegment]
    split
    · rfl
    · next effects state' _ => rw [ih (h.applyAll effects)]

theorem SameLogs.mergeAll_eq (h : SameLogs d g) (dir : WalDir) (active : Option ℕ) (now : ℕ)
    (drain : δ) :
    mergeAll c tenancy addLine dir active now g drain
      = mergeAll c tenancy addLine dir active now d drain := by
  rw [mergeAll, h.wal, h.mergeLoop_eq]
  rfl

/-! ## What the changes of a merge are -/

/-- The partitions a segment has rows in. -/
def keysOf (tenancy : Tenancy) (s : Segment) : List PartitionKey :=
  (partitions tenancy s.records).map Prod.fst

/-- A file is written for a segment that is not merged and that the run takes; and a segment is
committed when all its files are there. -/
def Sound (tenancy : Tenancy) (arrived : List (WalDir × Segment)) (taken : WalDir × Segment → Bool)
    (d : Disk) : Effect → Prop
  | .write path _ =>
    ∃ a ∈ arrived, taken a = true ∧ d.catalog.isSegmentMerged a.2.uuid = false ∧
      ∃ key ∈ keysOf tenancy a.2, path = filePath key a.2.id a.2.uuid
  | .commit id uuid files _ _ =>
    ∃ a ∈ arrived, d.catalog.isSegmentMerged a.2.uuid = false ∧ id = a.2.id ∧ uuid = a.2.uuid ∧
      ∃ rows : List (PartitionKey × List LogRecord), rows.map Prod.fst = keysOf tenancy a.2 ∧
        files = entriesOf id uuid rows ∧
        (∀ x ∈ rows, Assoc.get d.store (filePath x.1 id uuid) = some x.2) ∧
        (bareRows rows).Perm (a.2.records.map fun r => bare (withoutRouting r))
  | _ => True

variable {taken : WalDir × Segment → Bool}

theorem meets_writes {dir : WalDir} {s : Segment} (hs : (dir, s) ∈ arrived)
    (htaken : taken (dir, s) = true) (hnew : d.catalog.isSegmentMerged s.uuid = false)
    {rows : List (PartitionKey × List LogRecord)} (hkeys : ∀ x ∈ rows, x.1 ∈ keysOf tenancy s) :
    Runs.Meets Disk.apply (Sound tenancy arrived taken) d
      (rows.map fun x => .write (filePath x.1 s.id s.uuid) x.2) := by
  induction rows generalizing d with
  | nil => exact .nil _
  | cons x rows ih =>
    refine ⟨⟨(dir, s), hs, htaken, hnew, x.1, hkeys x List.mem_cons_self, rfl⟩, ?_⟩
    exact ih hnew fun y hy => hkeys y (List.mem_cons_of_mem x hy)

theorem catalog_writes (rows : List (PartitionKey × List LogRecord)) (id : ℕ) (u : Uuid) :
    (d.applyAll (rows.map fun x => .write (filePath x.1 id u) x.2)).catalog = d.catalog := by
  induction rows generalizing d with
  | nil => rfl
  | cons x rows ih => exact ih

theorem keys_segmentRows (tenancy : Tenancy) (addLine : Miner δ) (now : ℕ)
    (state : δ × MergeReport) (s : Segment) :
    (segmentRows tenancy addLine now state s.batches).2.map Prod.fst = keysOf tenancy s := by
  rw [segmentRows, keys_assignPartitions]
  rfl

theorem segmentEffects_meets {dir : WalDir} {s : Segment} (hs : (dir, s) ∈ arrived)
    (htaken : taken (dir, s) = true) (hnew : d.catalog.isSegmentMerged s.uuid = false)
    (now : ℕ) (state : δ × MergeReport) (r : Replay) :
    Runs.Meets Disk.apply (Sound tenancy arrived taken) d (segmentEffects dir now s.id s.uuid r
      (segmentRows tenancy addLine now state s.batches).2) := by
  have hkeys := keys_segmentRows tenancy addLine now state s
  have hnodup := nodup_segmentRows tenancy addLine now state s.batches
  have hrows := bareRows_segmentRows tenancy addLine now state s.batches
  generalize (segmentRows tenancy addLine now state s.batches).2 = rows at hkeys hnodup hrows
  let truncates : List Effect :=
    if r.outcome.truncatedTo.isSome then [.truncate dir s.id r.bytes] else []
  have htruncates : Runs.Meets Disk.apply (Sound tenancy arrived taken) d truncates ∧
      (d.applyAll truncates).catalog = d.catalog := by
    simp only [truncates]
    split
    · exact ⟨⟨trivial, trivial⟩, rfl⟩
    · exact ⟨.nil _, rfl⟩
  have hcatalog : ((d.applyAll truncates).applyAll
      (rows.map fun x => .write (filePath x.1 s.id s.uuid) x.2)).catalog = d.catalog := by
    rw [catalog_writes, htruncates.2]
  refine (htruncates.1.append (meets_writes hs htaken (by
    rw [← hnew, ← htruncates.2]; rfl) ?_)).append ⟨?_, trivial, trivial⟩
  · intro x hx
    rw [← hkeys]
    exact List.mem_map_of_mem hx
  · rw [Runs.run_append]
    refine ⟨(dir, s), hs, ?_, rfl, rfl, rows, hkeys, rfl, ?_, hrows⟩
    · rw [← hnew, ← hcatalog]
      rfl
    · intro x hx
      exact get_applyAll_writes hnodup _ hx

theorem mergeLoop_meets (hapart : Apart arrived) (hlogged : Logged c arrived d) (dir : WalDir)
    (now : ℕ) {fs : List WalFile} (hfs : ∀ f ∈ fs, f ∈ d.wal dir)
    (hids : (fs.map WalFile.id).Nodup)
    (htaken : ∀ s, (dir, s) ∈ arrived → s.id ∈ fs.map WalFile.id → taken (dir, s) = true)
    (state : δ × MergeReport) :
    Runs.Meets Disk.apply (Sound tenancy arrived taken) d
      (mergeLoop c tenancy addLine dir now fs d state).1 := by
  induction fs generalizing d state with
  | nil => exact .nil _
  | cons f fs ih =>
    obtain ⟨g, H, hsame⟩ := hlogged
    rw [List.map_cons, List.nodup_cons] at hids
    have hf : f ∈ g.wal dir := by
      rw [hsame.wal]
      exact hfs f List.mem_cons_self
    obtain ⟨effects, state', hsegment, hprog, hwal, -⟩ :=
      mergeSegment_progress tenancy addLine now hapart stable_replays H hf state
    have howned : Owned (Replays c) arrived (g.applyAll effects) := by
      have := (hprog effects.length).owned
      rwa [List.take_length] at this
    have hsegment' : mergeSegment c tenancy addLine dir now d.catalog state f
        = .ok (effects, state') := by
      rw [← hsegment]
      simp only [mergeSegment, hsame.isSegmentMerged]
    have hsound : Runs.Meets Disk.apply (Sound tenancy arrived taken) d effects := by
      rcases H.files dir f hf with hinc | ⟨s, body, hs, hbody, rfl⟩
      · obtain ⟨state₁, hmerge⟩ := mergeSegment_headerless c tenancy addLine dir now d.catalog state
          hinc
        rw [hmerge, Except.ok.injEq, Prod.mk.injEq] at hsegment'
        rw [← hsegment'.1]
        exact ⟨trivial, trivial⟩
      · cases hmerged : d.catalog.isSegmentMerged s.uuid with
        | true =>
          obtain ⟨state₁, hmerge⟩ := mergeSegment_merged c tenancy addLine dir now d.catalog state
            s.id body hmerged
          rw [hmerge, Except.ok.injEq, Prod.mk.injEq] at hsegment'
          rw [← hsegment'.1]
          exact ⟨trivial, trivial⟩
        | false =>
          obtain ⟨r, hr, hvisited⟩ := hbody
          obtain ⟨state₁, state₂, hmerge⟩ := mergeSegment_new tenancy addLine dir now d.catalog
            state s.id hmerged hr
          rw [hmerge, Except.ok.injEq, Prod.mk.injEq] at hsegment'
          rw [← hsegment'.1, hvisited]
          exact segmentEffects_meets hs (htaken s hs (by simp)) hmerged now state₁ r
    unfold mergeLoop
    rw [hsegment']
    refine hsound.append (ih ⟨_, howned, hsame.applyAll effects⟩ ?_ hids.2
      (fun s hs hid => htaken s hs (List.mem_cons_of_mem _ hid)) state')
    intro f' hf'
    show f' ∈ (d.applyAll effects).wal dir
    rw [← (hsame.applyAll effects).wal, hwal]
    refine List.mem_filter.mpr ⟨?_, ?_⟩
    · rw [hsame.wal]
      exact hfs f' (List.mem_cons_of_mem _ hf')
    · rw [bne_iff_ne]
      intro hid
      exact hids.1 (hid ▸ List.mem_map_of_mem hf')

/-- The segments a pass merges. -/
def Pass.takes (p : Pass δ) (a : WalDir × Segment) : Bool := !skipped (p.active a.1) a.2.id

variable (tenancy addLine)

theorem mergeAll_sound (hapart : Apart arrived) (hlogged : Logged c arrived d) (p : Pass δ)
    (dir : WalDir) (drain : δ) :
    ∃ effects state,
      mergeAll c tenancy addLine dir (p.active dir) p.now d drain = (effects, .ok state) ∧
      Runs.Meets Disk.apply (Sound tenancy arrived p.takes) d effects ∧
      (∀ n, Logged c arrived (d.applyAll (effects.take n))) ∧
      (d.applyAll effects).wal dir = (d.wal dir).filter (fun f => skipped (p.active dir) f.id) ∧
      ∀ dir', dir' ≠ dir → (d.applyAll effects).wal dir' = d.wal dir' := by
  obtain ⟨g, H, hsame⟩ := hlogged
  obtain ⟨effects, state, hmerge, hprog, hwal, hother⟩ :=
    mergeAll_progress tenancy addLine p.now hapart stable_replays H dir (p.active dir) drain
  have hperm : (listSegments (d.wal dir)).Perm (d.wal dir) := Lists.perm_sortByKey _ _
  have hsound : Runs.Meets Disk.apply (Sound tenancy arrived p.takes) d
      (mergeAll c tenancy addLine dir (p.active dir) p.now d drain).1 := by
    refine mergeLoop_meets hapart ⟨g, H, hsame⟩ dir p.now ?_ ?_ ?_ _
    · exact fun f hf => hperm.mem_iff.mp (List.mem_of_mem_filter hf)
    · have hids := H.ids dir
      rw [hsame.wal] at hids
      exact ((hperm.map WalFile.id).nodup_iff.mpr hids).sublist (List.filter_sublist.map _)
    · intro s _ hid
      obtain ⟨f, hf, hfid⟩ := List.mem_map.mp hid
      have := (List.mem_filter.mp hf).2
      rwa [hfid] at this
  rw [hsame.mergeAll_eq] at hmerge
  rw [hmerge] at hsound
  refine ⟨effects, state, hmerge, hsound, ?_, ?_, ?_⟩
  · exact fun n => ⟨_, (hprog n).owned, hsame.applyAll _⟩
  · rw [← (hsame.applyAll effects).wal, hwal, hsame.wal]
  · intro dir' hne
    rw [← (hsame.applyAll effects).wal, hother dir' hne, hsame.wal]

/-- The merges of a pass, wherever they stop. -/
theorem merges_sound (hapart : Apart arrived) (hlogged : Logged c arrived d) (p : Pass δ) :
    ∃ effects, p.merges c tenancy addLine d = done p.fails effects ∧
      Runs.Meets Disk.apply (Sound tenancy arrived p.takes) d effects ∧
      (∀ n, Logged c arrived (d.applyAll (effects.take n))) ∧
      ∀ dir, (d.applyAll effects).wal dir
        = (d.wal dir).filter (fun f => skipped (p.active dir) f.id) := by
  obtain ⟨main, ⟨drain, report⟩, hmain, hsound, hlog, hwal, hother⟩ :=
    mergeAll_sound tenancy addLine hapart hlogged p .main p.drain
  have hlogged' : Logged c arrived (d.applyAll main) := by
    have := hlog main.length
    rwa [List.take_length] at this
  obtain ⟨late, state, hlate, hsound', hlog', hwal', hother'⟩ :=
    mergeAll_sound tenancy addLine hapart hlogged' p .late drain
  refine ⟨main ++ late, ?_, hsound.append hsound', ?_, ?_⟩
  · rw [Pass.merges, hmain]
    simp only [hlate]
  · intro n
    rw [List.take_append, Disk.applyAll_append]
    by_cases hn : n ≤ main.length
    · rw [Nat.sub_eq_zero_of_le hn, List.take_zero]
      exact hlog n
    · rw [List.take_of_length_le (by omega)]
      exact hlog' _
  · intro dir
    rw [Disk.applyAll_append]
    cases dir with
    | main => rw [hother' .main (by decide), hwal]
    | late => rw [hwal', hother .late (by decide)]

end

end LogLess.Store
