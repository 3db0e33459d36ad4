import LogLess.Store.CompactExact

/-!
# Histories of maintenance

Segments arrive, passes merge and compact and may be cut short anywhere, and the catalog may be
rebuilt. As long as the passes are clean, a pass that gets to its end leaves the records of the
merged segments in the files, each once.
-/

namespace LogLess.Store

open Wal Frames

section

variable (c : Codec) (tenancy : Tenancy) {δ : Type} (addLine : Miner δ)

/-- A pass that is not cut short between the writing of an output and the last unlink of its
inputs, and that, as far as it gets, compacts no file of a segment that is not merged and writes
no output over a file. -/
def Pass.Clean (p : Pass δ) (stop : Option ℕ) (w : World) : Prop :=
  let effects := p.merges c tenancy addLine w.disk
  let rs := p.compaction c tenancy addLine w.disk
  let changes := rs.flatMap Replacement.changes
  ∃ k, stop.elim changes (fun n => changes.take (n - effects.length))
      = (rs.take k).flatMap Replacement.changes ∧
    Runs.Meets Disk.replace (Replacement.Fresh w.arrived) (w.disk.applyAll effects) (rs.take k)

/-- Segments appear under free ids other than zero and apart from all earlier ones, with times
of 64 bits; passes are clean. -/
def World.MaintainOk (w : World) : Maintenance δ → Prop
  | .arrive dir id uuid body =>
    id ≠ 0 ∧ w.disk.free dir id = true ∧ (∀ a ∈ w.arrived, a.2.apart ⟨id, uuid, [], []⟩ = true) ∧
      ∀ r ∈ (visitedBatches c uuid body).flatten, r.timestampUnixNano < 2 ^ 64
  | .headerless dir id bytes => w.disk.free dir id = true ∧ isIncompleteHeader bytes = true
  | .pass p stop => p.Clean c tenancy addLine stop w
  | .rebuild => True

/-- Every segment that a stopped merge has left files of is one that the pass merges. -/
def Pass.Closes (p : Pass δ) (w : World) : Prop :=
  ∀ q ∈ w.disk.paths, ∀ a ∈ w.arrived, w.disk.catalog.isSegmentMerged a.2.uuid = false →
    q.getLast? = some a.2.fileName → p.takes a = true

structure World.Kept (w : World) : Prop where
  arrived : Arrived tenancy w.arrived
  logged : Logged c w.arrived w.disk
  consistent : Consistent tenancy w.arrived w.disk

variable {c tenancy addLine} {arrived : List (WalDir × Segment)} {d : Disk}

theorem World.kept_init : World.init.Kept c tenancy where
  arrived := ⟨List.Pairwise.nil, by simp [World.init], by simp [World.init]⟩
  logged := ⟨World.init.disk, (World.inv_init _).2, rfl, rfl⟩
  consistent :=
    { nodup := List.nodup_nil
      nodup_catalog := List.nodup_nil
      listed := by simp [World.init, Catalog.paths, Catalog.empty]
      known := by simp [World.init, Disk.paths]
      filed := by simp [World.init, Disk.paths]
      rows := List.Perm.refl _ }

theorem Logged.replace (h : Logged c arrived d) (r : Replacement) :
    Logged c arrived (d.replace r) := by
  obtain ⟨g, H, hsame⟩ := h
  refine ⟨g, H, ?_, ?_⟩
  · rw [replace_eq]
    exact hsame.wal
  · rw [replace_eq]
    exact hsame.merged

theorem changeAll_append (d : Disk) (cs cs' : List Change) :
    d.changeAll (cs ++ cs') = (d.changeAll cs).changeAll cs' := List.foldl_append

theorem changeAll_merges (d : Disk) (es : List Effect) :
    d.changeAll (es.map .merge) = d.applyAll es := by
  induction es generalizing d with
  | nil => rfl
  | cons e es ih => exact ih _

theorem changeAll_replacements (d : Disk) (rs : List Replacement) :
    d.changeAll (rs.flatMap Replacement.changes) = Runs.run Disk.replace d rs := by
  induction rs generalizing d with
  | nil => rfl
  | cons r rs ih =>
    rw [List.flatMap_cons, changeAll_append, Runs.run_cons]
    exact ih _

/-- A pass that is cut short in its merges is clean. -/
theorem Pass.clean_of_le {p : Pass δ} {n : ℕ} {w : World}
    (h : n ≤ (p.merges c tenancy addLine w.disk).length) :
    p.Clean c tenancy addLine (some n) w := by
  refine ⟨0, ?_, .nil _⟩
  show List.take (n - _) _ = _
  rw [Nat.sub_eq_zero_of_le h, List.take_zero]
  rfl

theorem Pass.clean_none {p : Pass δ} {w : World}
    (h : Runs.Meets Disk.replace (Replacement.Fresh w.arrived)
      (w.disk.applyAll (p.merges c tenancy addLine w.disk))
      (p.compaction c tenancy addLine w.disk)) :
    p.Clean c tenancy addLine none w := by
  refine ⟨(p.compaction c tenancy addLine w.disk).length, ?_, ?_⟩
  · rw [List.take_length]
    rfl
  · rwa [List.take_length]

/-- The disk after a clean pass: some of its merges were done, or all of them and some whole
compactions. -/
theorem Pass.Clean.disk {p : Pass δ} {stop : Option ℕ} {w : World}
    (h : p.Clean c tenancy addLine stop w) :
    (∃ n, (w.maintain c tenancy addLine (.pass p stop)).disk
      = w.disk.applyAll ((p.merges c tenancy addLine w.disk).take n)) ∨
    ∃ k, (w.maintain c tenancy addLine (.pass p stop)).disk
        = Runs.run Disk.replace (w.disk.applyAll (p.merges c tenancy addLine w.disk))
          ((p.compaction c tenancy addLine w.disk).take k) ∧
      Runs.Meets Disk.replace (Replacement.Fresh w.arrived)
        (w.disk.applyAll (p.merges c tenancy addLine w.disk))
        ((p.compaction c tenancy addLine w.disk).take k) := by
  obtain ⟨k, hcut, hfresh⟩ := h
  simp only [World.maintain, Pass.changes]
  cases stop with
  | none =>
    right
    refine ⟨k, ?_, hfresh⟩
    simp only [Option.elim_none] at hcut ⊢
    rw [changeAll_append, changeAll_merges, hcut, changeAll_replacements]
  | some n =>
    simp only [Option.elim_some] at hcut ⊢
    rw [List.take_append, List.length_map, changeAll_append, ← List.map_take, changeAll_merges]
    by_cases hn : n < (p.merges c tenancy addLine w.disk).length
    · left
      refine ⟨n, ?_⟩
      rw [Nat.sub_eq_zero_of_le (by omega), List.take_zero]
      rfl
    · right
      refine ⟨k, ?_, hfresh⟩
      rw [hcut, changeAll_replacements, List.take_of_length_le (by omega)]

/-- Wherever the merges of a pass stop, the log and the store are as they should be. -/
theorem World.Kept.merges {w : World} (h : w.Kept c tenancy) (addLine : Miner δ) (p : Pass δ)
    (n : ℕ) :
    Logged c w.arrived (w.disk.applyAll ((p.merges c tenancy addLine w.disk).take n)) ∧
      Consistent tenancy w.arrived
        (w.disk.applyAll ((p.merges c tenancy addLine w.disk).take n)) := by
  obtain ⟨effects, heffects, hsound, hlogged, -⟩ :=
    merges_sound tenancy addLine h.arrived.apart h.logged p
  obtain ⟨m, hm⟩ : ∃ m, (p.merges c tenancy addLine w.disk).take n = effects.take m := by
    rw [heffects]
    cases p.fails with
    | none => exact ⟨n, rfl⟩
    | some f => exact ⟨min n f, List.take_take⟩
  rw [hm]
  refine ⟨hlogged m, ?_⟩
  have hmeets : Runs.Meets Disk.apply (Sound tenancy w.arrived p.takes) w.disk
      (effects.take m) := by
    rw [← List.take_append_drop m effects] at hsound
    exact hsound.append_left
  exact hmeets.invariant (fun d e hd he => hd.apply h.arrived he) h.consistent

theorem World.Kept.merged {w : World} (h : w.Kept c tenancy) (addLine : Miner δ) (p : Pass δ) :
    Logged c w.arrived (w.disk.applyAll (p.merges c tenancy addLine w.disk)) ∧
      Consistent tenancy w.arrived (w.disk.applyAll (p.merges c tenancy addLine w.disk)) := by
  have := h.merges addLine p (p.merges c tenancy addLine w.disk).length
  rwa [List.take_length] at this

theorem World.Kept.pass {w : World} (h : w.Kept c tenancy) {p : Pass δ} {stop : Option ℕ}
    (hclean : p.Clean c tenancy addLine stop w) :
    (w.maintain c tenancy addLine (.pass p stop)).Kept c tenancy := by
  rcases hclean.disk with ⟨n, hdisk⟩ | ⟨k, hdisk, hfresh⟩
  · refine ⟨h.arrived, ?_, ?_⟩
    · rw [hdisk]
      exact (h.merges addLine p n).1
    · rw [hdisk]
      exact (h.merges addLine p n).2
  · obtain ⟨hlogged, hconsistent⟩ := h.merged addLine p
    have hfits := compactLoop_fits hconsistent.pending hfresh
    have hstep : ∀ (d : Disk) (r : Replacement),
        Logged c w.arrived d ∧ Consistent tenancy w.arrived d → r.Fits w.arrived d →
        Logged c w.arrived (d.replace r) ∧ Consistent tenancy w.arrived (d.replace r) :=
      fun d r hd hr => ⟨hd.1.replace r, hd.2.replace h.arrived hr⟩
    have hkeep := hfits.invariant hstep ⟨hlogged, hconsistent⟩
    refine ⟨h.arrived, ?_, ?_⟩
    · rw [hdisk]
      exact hkeep.1
    · rw [hdisk]
      exact hkeep.2

/-! ## Every step -/

theorem valid_keysOf {s : Segment} (h : ∀ r ∈ s.records, r.timestampUnixNano < 2 ^ 64)
    {key : PartitionKey} (hkey : key ∈ keysOf tenancy s) : key.Valid := by
  obtain ⟨⟨k, rs⟩, hmem, rfl⟩ := List.mem_map.mp hkey
  have hne : rs ≠ [] := ne_nil_of_mem_partitions hmem
  obtain ⟨x, hx⟩ := List.exists_mem_of_ne_nil rs hne
  obtain ⟨r, hr, hpart, -⟩ := mem_partitions.mp ⟨rs, hmem, hx⟩
  rw [← hpart]
  exact valid_partitionOf tenancy (h r hr)

theorem World.Kept.arrive {w : World} (h : w.Kept c tenancy) {dir : WalDir} {id : ℕ} {uuid : Uuid}
    {body : Bytes} (hid : id ≠ 0) (hfree : w.disk.free dir id = true)
    (hapart : ∀ a ∈ w.arrived, a.2.apart ⟨id, uuid, [], []⟩ = true)
    (htimes : ∀ r ∈ (visitedBatches c uuid body).flatten, r.timestampUnixNano < 2 ^ 64) :
    (w.maintain c tenancy addLine (.arrive dir id uuid body)).Kept c tenancy := by
  obtain ⟨g, H, hsame⟩ := h.logged
  let s : Segment := ⟨id, uuid, visitedBatches c uuid body, []⟩
  have hapart' : ∀ a ∈ w.arrived, a.2.apart s = true := hapart
  have hnew : w.disk.catalog.isSegmentMerged s.uuid = false := by
    rw [Bool.eq_false_iff]
    intro hmerged
    rw [← hsame.isSegmentMerged] at hmerged
    obtain ⟨a, ha, huuid⟩ := H.known _ hmerged
    have := hapart' a ha
    simp [Segment.apart, huuid] at this
  have harrived : Arrived tenancy (w.arrived ++ [(dir, s)]) := by
    refine ⟨h.arrived.apart.concat hapart', ?_, ?_⟩
    · intro a ha
      rcases List.mem_append.mp ha with ha | ha
      · exact h.arrived.ids a ha
      · rw [List.mem_singleton.mp ha]
        exact hid
    · intro a ha key hkey
      rcases List.mem_append.mp ha with ha | ha
      · exact h.arrived.valid a ha key hkey
      · rw [List.mem_singleton.mp ha] at hkey
        exact valid_keysOf (s := s) htimes hkey
  have hfree' : g.free dir s.id = true := by
    rw [Disk.free, hsame.wal]
    exact hfree
  refine ⟨harrived, ⟨_, H.arrive (replays_visited id uuid body) hfree', ?_, hsame.merged⟩, ?_⟩
  · show (g.addFile dir _).wal = (w.disk.addFile dir _).wal
    simp only [Disk.addFile, hsame.wal]
  · exact h.consistent.arrive harrived hapart' hnew _

theorem World.Kept.headerless {w : World} (h : w.Kept c tenancy) {dir : WalDir} {id : ℕ}
    {bytes : Bytes} (hfree : w.disk.free dir id = true)
    (hinc : isIncompleteHeader bytes = true) :
    (w.maintain c tenancy addLine (.headerless dir id bytes)).Kept c tenancy := by
  obtain ⟨g, H, hsame⟩ := h.logged
  have hfree' : g.free dir id = true := by
    rw [Disk.free, hsame.wal]
    exact hfree
  refine ⟨h.arrived, ⟨_, H.headerless hfree' hinc, ?_, hsame.merged⟩, h.consistent.congr rfl rfl⟩
  show (g.addFile dir _).wal = (w.disk.addFile dir _).wal
  simp only [Disk.addFile, hsame.wal]

theorem World.Kept.rebuild {w : World} (h : w.Kept c tenancy) :
    (w.maintain c tenancy addLine .rebuild).Kept c tenancy := by
  obtain ⟨g, H, hsame⟩ := h.logged
  refine ⟨h.arrived, ⟨g, H, hsame.wal, ?_⟩, h.consistent.rebuild⟩
  rw [hsame.merged]
  simp [World.maintain, Disk.rebuild]

theorem World.Kept.step {w : World} (h : w.Kept c tenancy) {e : Maintenance δ}
    (hok : w.MaintainOk c tenancy addLine e) :
    (w.maintain c tenancy addLine e).Kept c tenancy := by
  cases e with
  | arrive dir id uuid body =>
    obtain ⟨hid, hfree, hapart, htimes⟩ := hok
    exact h.arrive hid hfree hapart htimes
  | headerless dir id bytes => exact h.headerless hok.1 hok.2
  | pass p stop => exact h.pass hok
  | rebuild => exact h.rebuild

/-! ## After a pass that gets to its end -/

/-- No file is left of a segment that is not merged. -/
def Disk.Settled (d : Disk) (arrived : List (WalDir × Segment)) : Prop :=
  ∀ q ∈ d.paths, d.staged arrived q = false

/-- Files that are staged are of segments that are taken. -/
def Disk.StagedOf (taken : WalDir × Segment → Bool) (arrived : List (WalDir × Segment)) (d : Disk) :
    Prop :=
  ∀ q ∈ d.paths, ∀ a ∈ arrived, d.catalog.isSegmentMerged a.2.uuid = false →
    q.getLast? = some a.2.fileName → taken a = true

theorem Disk.StagedOf.apply (harr : Arrived tenancy arrived) {taken : WalDir × Segment → Bool}
    (h : d.StagedOf taken arrived) {e : Effect} (hsound : Sound tenancy arrived taken d e) :
    (d.apply e).StagedOf taken arrived := by
  cases e with
  | truncate dir id bytes => exact h
  | write path rows =>
    obtain ⟨a, ha, htaken, -, key, -, rfl⟩ := hsound
    intro q hq b hb hunmerged hname
    rcases Assoc.mem_keys_insert.mp hq with rfl | hq
    · rw [getLast?_filePath, Option.some.injEq] at hname
      rw [← harr.eq_of_fileName ha hb hname]
      exact htaken
    · exact h q hq b hb hunmerged hname
  | commit id uuid files ss now =>
    intro q hq b hb hunmerged hname
    refine h q hq b hb ?_ hname
    rw [Bool.eq_false_iff] at hunmerged ⊢
    exact fun hmerged => hunmerged (Catalog.isSegmentMerged_commitMerge.mpr (.inr hmerged))
  | remove dir id => exact h

/-- Once the merges of a pass are done, nothing is staged. -/
theorem World.Kept.settled {w : World} (h : w.Kept c tenancy) (addLine : Miner δ) {p : Pass δ}
    (hfails : p.fails = none) (hcloses : p.Closes w) :
    (w.disk.applyAll (p.merges c tenancy addLine w.disk)).Settled w.arrived := by
  obtain ⟨effects, heffects, hsound, hlogged, hwal⟩ :=
    merges_sound tenancy addLine h.arrived.apart h.logged p
  rw [heffects, hfails]
  have hof : (w.disk.applyAll effects).StagedOf p.takes w.arrived :=
    hsound.invariant (fun d e hd he => hd.apply h.arrived he) hcloses
  have hlast := hlogged effects.length
  rw [List.take_length] at hlast
  obtain ⟨g, H, hsame⟩ := hlast
  intro q hq
  rw [Bool.eq_false_iff]
  intro hstaged
  obtain ⟨a, ha, hunmerged, hname⟩ := staged_iff.mp hstaged
  have htakes := hof q hq a ha hunmerged hname
  rcases H.present a ha with hmerged | ⟨body, -, hfile⟩
  · rw [hsame.isSegmentMerged] at hmerged
    exact absurd (hmerged.symm.trans hunmerged) (by decide)
  · -- its log file would still be there
    rw [hsame.wal] at hfile
    have hfile' : (⟨a.2.id, segmentBytes a.2.uuid body⟩ : WalFile) ∈
        (w.disk.wal a.1).filter (fun f => skipped (p.active a.1) f.id) := by
      rw [← hwal a.1]
      exact hfile
    have hskipped := (List.mem_filter.mp hfile').2
    simp [Pass.takes, hskipped] at htakes

theorem Disk.Settled.replace (harr : Arrived tenancy arrived) (h : d.Settled arrived)
    {r : Replacement} (hr : r.Fits arrived d) : (d.replace r).Settled arrived := by
  intro q hq
  rw [staged_replace]
  rw [paths_replace hr] at hq
  rcases List.mem_append.mp hq with hq | hq
  · exact h q (List.mem_of_mem_filter hq)
  · rw [List.mem_singleton.mp hq]
    exact harr.output_not_staged r.key r.uuid

/-- Then all files and the files of the catalog have the rows of the merged segments. -/
theorem Consistent.exact (h : Consistent tenancy arrived d) (hsettled : d.Settled arrived) :
    (d.stored.map bare).Perm (d.mergedRecords arrived) ∧
      (d.committed.map bare).Perm (d.mergedRecords arrived) := by
  have hall : d.settled arrived = d.paths := by
    rw [Disk.settled, List.filter_eq_self]
    intro q hq
    rw [hsettled q hq]
    rfl
  have hrows := h.rows
  rw [hall] at hrows
  have hstored : d.stored = d.paths.flatMap d.rowsAt := by
    rw [Disk.stored, Disk.paths, List.flatMap_map, List.flatMap_def, List.flatMap_def]
    congr 1
    refine List.map_congr_left fun x hx => ?_
    rw [Disk.rowsAt, (Assoc.get_eq_some_iff h.nodup).mpr hx]
    rfl
  have hpaths : d.catalog.paths.Perm d.paths := by
    rw [List.perm_ext_iff_of_nodup h.nodup_catalog h.nodup]
    intro q
    refine ⟨h.listed q, fun hq => ?_⟩
    rcases h.known q hq with hq | hstaged
    · exact hq
    · exact absurd (hstaged.symm.trans (hsettled q hq)) (by decide)
  refine ⟨?_, ?_⟩
  · rw [hstored]
    exact hrows
  · exact ((hpaths.flatMap_right d.rowsAt).map bare).trans hrows

variable (c tenancy addLine)

/-- **Compaction neither loses nor duplicates rows in clean histories.** Take any history of
segments that arrive, of passes that end, fail or crash, and of rebuilds, in which no pass is
cut short between an output and the last unlink of its inputs, none compacts a file of a segment
that is not merged, and none writes an output over a file. After a pass that gets to its end,
the rows of all files, and those of the files of the catalog, are the records of the merged
segments, each once. -/
theorem maintenance_exactly_once (es : List (Maintenance δ)) (p : Pass δ) (hfails : p.fails = none)
    (hok : Runs.Meets (World.maintain c tenancy addLine) (World.MaintainOk c tenancy addLine) .init
      (es ++ [.pass p none]))
    (hcloses : p.Closes (Runs.run (World.maintain c tenancy addLine) .init es)) :
    let w := Runs.run (World.maintain c tenancy addLine) .init (es ++ [.pass p none])
    (w.disk.stored.map bare).Perm (w.disk.mergedRecords w.arrived) ∧
      (w.disk.committed.map bare).Perm (w.disk.mergedRecords w.arrived) := by
  intro w
  have hkeep : ∀ (w : World) (e : Maintenance δ), w.Kept c tenancy →
      w.MaintainOk c tenancy addLine e → (w.maintain c tenancy addLine e).Kept c tenancy :=
    fun _ _ hw he => hw.step he
  have hbefore := hok.append_left.invariant hkeep World.kept_init
  have hafter : w.Kept c tenancy := hok.invariant hkeep World.kept_init
  refine hafter.consistent.exact ?_
  set w₀ := Runs.run (World.maintain c tenancy addLine) .init es with hw₀
  have hw : w = w₀.maintain c tenancy addLine (.pass p none) := Runs.run_concat _ _ _ _
  obtain ⟨k, hcut, hfresh⟩ : p.Clean c tenancy addLine none w₀ := hok.append_right.1
  have hdisk : w.disk = Runs.run Disk.replace
      (w₀.disk.applyAll (p.merges c tenancy addLine w₀.disk))
      ((p.compaction c tenancy addLine w₀.disk).take k) := by
    rw [hw]
    simp only [World.maintain, Pass.changes, Option.elim_none] at hcut ⊢
    rw [changeAll_append, changeAll_merges, hcut, changeAll_replacements]
  have hsettled := hbefore.settled addLine hfails hcloses
  have hfits := compactLoop_fits (hbefore.merged addLine p).2.pending hfresh
  have harrived : w.arrived = w₀.arrived := by rw [hw]; rfl
  have hstep : ∀ (d : Disk) (r : Replacement), d.Settled w₀.arrived → r.Fits w₀.arrived d →
      (d.replace r).Settled w₀.arrived := fun d r hd hr => hd.replace hbefore.arrived hr
  rw [hdisk, harrived]
  exact hfits.invariant hstep hsettled

end

/-! ## Examples -/

/-- A segment of one record, closed with all its frames. -/
def arriveOne (id : ℕ) (x : UInt8) (body : Text) : Maintenance Drain :=
  let s := oneRecord id x body
  .arrive .main s.id s.uuid (s.body Postcard.codec)

/-- A pass without a quiet time, at millisecond `ms`, over files of one byte. -/
def plainPass (ms : ℕ) : Pass Drain where
  active := fun _ => none
  now := 0
  drain := .new .default
  fails := none
  config := .default 0
  env :=
    { size := fun _ => some 1
      writtenUnixSecs := fun _ => none
      nowUnixSecs := none
      uuid := fun _ => .nowV7 ms (List.replicate 10 0) length_zeros }

def fourSegments : List (Maintenance Drain) :=
  [arriveOne 1 1 ['a'], arriveOne 2 2 ['b'], arriveOne 3 3 ['c'], arriveOne 4 4 ['d']]

def maintainExample : World → Maintenance Drain → World :=
  World.maintain Postcard.codec Agent.plainSettings.tenancy mine

instance (arrived : List (WalDir × Segment)) (d : Disk) (r : Replacement) :
    Decidable (r.Fresh arrived d) :=
  inferInstanceAs (Decidable (r.path ∉ d.paths ∧ ∀ p ∈ r.consumed, d.staged arrived p = false))

/-- A pass that is cut short in its first merge, and one that merges all segments and compacts
their files. -/
theorem maintenance_exactly_once_crashed :
    let es := fourSegments ++ [.pass (plainPass 1) (some 1)]
    let w := Runs.run maintainExample .init (es ++ [.pass (plainPass 2) none])
    ((w.disk.stored.map bare).Perm (w.disk.mergedRecords w.arrived) ∧
      (w.disk.committed.map bare).Perm (w.disk.mergedRecords w.arrived)) ∧
      w.disk.paths.length = 1 ∧ w.disk.stored.length = 4 := by
  intro es w
  have hmeets : Runs.Meets maintainExample
      (World.MaintainOk Postcard.codec Agent.plainSettings.tenancy mine) .init
      (es ++ [.pass (plainPass 2) none]) := by
    refine ⟨?_, ?_, ?_, ?_, ?_, ?_, trivial⟩
    · exact ⟨by decide, by decide, by decide, by decide +kernel⟩
    · exact ⟨by decide, by decide +kernel, by decide +kernel, by decide +kernel⟩
    · exact ⟨by decide, by decide +kernel, by decide +kernel, by decide +kernel⟩
    · exact ⟨by decide, by decide +kernel, by decide +kernel, by decide +kernel⟩
    · exact Pass.clean_of_le (by decide +kernel)
    · exact Pass.clean_none (by decide +kernel)
  have h := maintenance_exactly_once Postcard.codec Agent.plainSettings.tenancy mine es
    (plainPass 2) rfl hmeets (fun _ _ _ _ _ _ => rfl)
  exact ⟨h, by decide +kernel, by decide +kernel⟩

/-- Four files of a partition are compacted, and the agent stops before it unlinks them. A
rebuild lists all five, and the next pass compacts the five into one. -/
theorem interrupted_compaction_duplicates_rows :
    let w := Runs.run maintainExample .init
      (fourSegments ++ [.pass (plainPass 1) (some 13), .rebuild, .pass (plainPass 2) none])
    (w.disk.mergedRecords w.arrived).length = 4 ∧ w.disk.stored.length = 8 ∧
      w.disk.committed.length = 8 ∧
      ¬ (w.disk.stored.map bare).Perm (w.disk.mergedRecords w.arrived) ∧
      ¬ (w.disk.committed.map bare).Perm (w.disk.mergedRecords w.arrived) := by
  intro w
  have hmerged : (w.disk.mergedRecords w.arrived).length = 4 := by decide +kernel
  have hstored : w.disk.stored.length = 8 := by decide +kernel
  have hcommitted : w.disk.committed.length = 8 := by decide +kernel
  refine ⟨hmerged, hstored, hcommitted, ?_, ?_⟩
  · intro h
    have := h.length_eq
    rw [List.length_map] at this
    omega
  · intro h
    have := h.length_eq
    rw [List.length_map] at this
    omega

end LogLess.Store
