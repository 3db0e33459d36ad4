import LogLess.Wal.Postcard
import LogLess.Lib.Runs

/-!
# The main log and the late spool behind one writer

`SplitWal` sends each record to one of two logs by its event time and publishes one
count for both. The count is only given with both logs synced, so it is the number of
records appended so far, all of them in synced bytes of their own log.
-/

namespace LogLess.Wal

open Frames

/-! ## What each call of a writer does to its log -/

/-- The batches a call of `append` with this result added to the log. -/
def written (batch : Batch) : Except WalError Unit → List Batch
  | .ok _ => if batch = [] then [] else [batch]
  | .error _ => []

@[simp] theorem written_nil (r : Except WalError Unit) : written [] r = [] := by
  cases r <;> rfl

theorem written_ok (batch : Batch) (u : Unit) :
    written batch (.ok u) = if batch = [] then [] else [batch] := rfl

@[simp] theorem flatten_written_ok (batch : Batch) (u : Unit) :
    (written batch (.ok u)).flatten = batch := by
  rw [written_ok]
  split
  · next h => rw [h]; rfl
  · simp

namespace WalWriter

variable {c : Codec} {w : WalWriter} {bs : List Batch} {n : ℕ}

/-- A log and its record counter: `w` holds the batches `bs`, at least the first `n` of
them synced. -/
structure Logs (c : Codec) (w : WalWriter) (bs : List Batch) (n : ℕ) : Prop where
  holds : ∃ m, n ≤ m ∧ Holds c w bs m
  records : w.recordsWritten = bs.flatten.length

theorem logs_open (last : Option ℕ) (segmentBytes fsyncInterval fsyncBytes instant : ℕ)
    (uuids : ℕ → Uuid) :
    Logs c (WalWriter.open last segmentBytes fsyncInterval fsyncBytes instant uuids) [] 0 :=
  ⟨⟨0, le_rfl, holds_open ..⟩, rfl⟩

theorem Logs.le (h : Logs c w bs n) : n ≤ bs.length := by
  obtain ⟨m, hm, hh⟩ := h.holds
  exact hm.trans hh.le

theorem Logs.sync (h : Logs c w bs n) (instant : ℕ) : Logs c (w.sync instant) bs bs.length := by
  obtain ⟨m, -, hh⟩ := h.holds
  exact ⟨⟨_, le_rfl, hh.sync instant⟩, h.records⟩

theorem Logs.roll (h : Logs c w bs n) (instant : ℕ) : Logs c (w.roll instant) bs bs.length := by
  obtain ⟨m, -, hh⟩ := h.holds
  exact ⟨⟨_, le_rfl, hh.roll instant⟩, h.records⟩

theorem Logs.mono (h : Logs c w bs n) {m : ℕ} (hm : m ≤ n) : Logs c w bs m := by
  obtain ⟨k, hk, hh⟩ := h.holds
  exact ⟨⟨k, hm.trans hk, hh⟩, h.records⟩

theorem Logs.append (h : Logs c w bs n) (b : Batch) (instant : ℕ) :
    Logs c (w.append c b instant).1 (bs ++ written b (w.append c b instant).2) n := by
  unfold WalWriter.append
  split
  · next hb => simpa [hb] using h
  · next hb =>
    split
    · simpa [written] using h
    · -- the batch is written; a roll on top of it only syncs more
      obtain ⟨m, hm, hh⟩ := h.holds
      have hlogs : Logs c (w.write c b) (bs ++ [b]) n := by
        refine ⟨⟨m, hm, hh.write b⟩, ?_⟩
        simp [WalWriter.write, h.records]
      have hle : n ≤ (bs ++ [b]).length := hlogs.le
      simp only
      split
      · simpa [written, hb] using (hlogs.roll instant).mono hle
      · simpa [written, hb] using hlogs

theorem Logs.rollIfDue (h : Logs c w bs n) (now instant : ℕ) :
    Logs c (w.rollIfDue now instant).1 bs n := by
  unfold WalWriter.rollIfDue
  split
  · exact h
  · split
    · exact (h.roll instant).mono h.le
    · exact h

theorem Logs.start (h : Logs c w bs n) (now : ℕ) : Logs c (w.start now) bs n := by
  obtain ⟨m, hm, hh⟩ := h.holds
  refine ⟨⟨m, hm, hh.start now⟩, ?_⟩
  rw [← h.records]
  unfold WalWriter.start
  split <;> rfl

theorem Logs.appendAt (h : Logs c w bs n) (b : Batch) (now instant : ℕ) :
    Logs c (w.appendAt c b now instant).1 (bs ++ written b (w.appendAt c b now instant).2) n := by
  unfold WalWriter.appendAt
  split
  · next hb => simpa [hb] using h
  · exact ((h.rollIfDue now instant).start now).append b instant

theorem Logs.maybeSync (h : Logs c w bs n) (instant : ℕ) :
    Logs c (w.maybeSync instant).1 bs n := by
  unfold WalWriter.maybeSync
  -- the reported count is not part of what the log holds
  have hrep : ∀ {w : WalWriter} (r : ℕ), Logs c w bs n → Logs c { w with reportedRecords := r } bs n := by
    rintro w r ⟨⟨m, hm, segs, cur, k, L, hbs, hk⟩, hr⟩
    exact ⟨⟨m, hm, segs, cur, k, ⟨L.closed, L.current, L.synced, L.le, L.unsynced, L.ids,
      L.lastId⟩, hbs, hk⟩, hr⟩
  simp only
  split
  · exact hrep _ ((h.sync instant).mono h.le)
  · exact hrep _ h

/-- What `SplitWal::sync` does to one log: afterwards all of it is synced. -/
theorem Logs.syncIfNeeded (h : Logs c w bs n) (instant : ℕ) :
    Logs c (if 0 < w.unsyncedBytes then w.sync instant else w) bs bs.length := by
  split
  · exact h.sync instant
  · obtain ⟨m, -, hh⟩ := h.holds
    have hm := hh.unsynced_eq_zero (by omega)
    exact ⟨⟨m, hm.ge, hh⟩, h.records⟩

theorem Logs.syncedFrames_eq (h : Logs c w bs bs.length) : w.syncedFrames = c.frames bs := by
  obtain ⟨m, hm, hh⟩ := h.holds
  rw [hh.syncedFrames_eq, List.take_of_length_le hm]

/-- The synced bytes start with the frames of the first `n` batches. -/
theorem Logs.frames_synced (h : Logs c w bs n) : c.frames (bs.take n) <+: w.syncedFrames := by
  obtain ⟨m, hm, hh⟩ := h.holds
  rw [hh.syncedFrames_eq]
  exact Frames.frames_mono ((List.take_prefix_take_left hm).map _)

end WalWriter

/-! ## `SplitWal` -/

/-- How the two logs roll and sync. -/
structure SplitConfig where
  segmentBytes : ℕ
  fsyncInterval : ℕ
  fsyncBytes : ℕ
  lateThreshold : ℕ
  lateRoll : ℕ
  lateSegmentBytes : ℕ

/-- `late_threshold` as the `u64` nanoseconds the writer compares with. -/
def SplitConfig.thresholdNanos (config : SplitConfig) : ℕ := min config.lateThreshold (2 ^ 64 - 1)

structure SplitWal where
  main : WalWriter
  late : WalWriter
  lateThresholdNanos : ℕ
  lateRecords : ℕ

namespace SplitWal

/-- `SplitWal::open` on two directories whose highest segment ids are `lastMain` and
`lastLate`. -/
def «open» (lastMain lastLate : Option ℕ) (config : SplitConfig) (instant : ℕ)
    (uuids lateUuids : ℕ → Uuid) : SplitWal where
  main := WalWriter.open lastMain config.segmentBytes config.fsyncInterval config.fsyncBytes
    instant uuids
  late := (WalWriter.open lastLate config.lateSegmentBytes config.fsyncInterval config.fsyncBytes
    instant lateUuids).withRollAfter config.lateRoll
  lateThresholdNanos := config.thresholdNanos
  lateRecords := 0

/-- Whether a record's event time puts it in the late spool at time `now`. -/
def isLate (threshold now : ℕ) (r : LogRecord) : Bool := r.timestampUnixNano < now - threshold

def append (c : Codec) (w : SplitWal) (batch : Batch) (now instant : ℕ) :
    SplitWal × Except WalError Unit :=
  if ¬ batch.any (isLate w.lateThresholdNanos now) then
    -- the live path: nothing is copied
    let (main, r) := w.main.append c batch instant
    ({ w with main := main }, r)
  else
    let (late, onTime) := batch.partition (isLate w.lateThresholdNanos now)
    let w := { w with lateRecords := w.lateRecords + late.length }
    match w.main.append c onTime instant with
    | (main, .error e) => ({ w with main := main }, .error e)
    | (main, .ok _) =>
      let (lateLog, r) := w.late.appendAt c late now instant
      ({ w with main := main, late := lateLog }, r)

/-- Syncs both logs and returns the number of records on disk. -/
def sync (w : SplitWal) (instant : ℕ) : SplitWal × ℕ :=
  let main := if 0 < w.main.unsyncedBytes then w.main.sync instant else w.main
  let late := if 0 < w.late.unsyncedBytes then w.late.sync instant else w.late
  ({ w with main := main, late := late }, main.recordsWritten + late.recordsWritten)

/-- Syncs on the logs' policy and rolls the late spool when it is due. -/
def maybeSync (w : SplitWal) (now instant : ℕ) : SplitWal × Option ℕ :=
  let late := (w.late.rollIfDue now instant).1
  let (main, mainAdvanced) := w.main.maybeSync instant
  let (late, lateAdvanced) := late.maybeSync instant
  let w := { w with main := main, late := late }
  if mainAdvanced || lateAdvanced then
    let (w, n) := w.sync instant
    (w, some n)
  else (w, none)

def activeSegments (w : SplitWal) : ℕ × ℕ := (w.main.currentSegmentId, w.late.currentSegmentId)

def recordsWritten (w : SplitWal) : ℕ := w.main.recordsWritten + w.late.recordsWritten

/-! ## Sequences of calls -/

inductive Call where
  | append (batch : Batch) (now instant : ℕ)
  | maybeSync (now instant : ℕ)
  | sync (instant : ℕ)
  | rollMain (instant : ℕ)

/-- One call: the writer after it, and the count it returned if it returned one. -/
def exec (c : Codec) (w : SplitWal) : Call → SplitWal × Except WalError (Option ℕ)
  | .append batch now instant =>
    let (w, r) := w.append c batch now instant
    (w, r.map fun _ => none)
  | .maybeSync now instant =>
    let (w, n) := w.maybeSync now instant
    (w, .ok n)
  | .sync instant =>
    let (w, n) := w.sync instant
    (w, .ok (some n))
  | .rollMain instant => ({ w with main := w.main.roll instant }, .ok none)

/-- The records of a batch that go to the main log. -/
def onTime (w : SplitWal) (batch : Batch) (now : ℕ) : Batch :=
  batch.filter fun r => !isLate w.lateThresholdNanos now r

/-- The records of a batch that go to the late spool. -/
def lateOf (w : SplitWal) (batch : Batch) (now : ℕ) : Batch :=
  batch.filter (isLate w.lateThresholdNanos now)

/-- The batches a call adds to the main log and to the late spool. An append that fails
on the main log adds nothing; one that fails on the late spool has written to the main. -/
def placed (c : Codec) (w : SplitWal) : Call → List Batch × List Batch
  | .append batch now instant =>
    match (w.main.append c (w.onTime batch now) instant).2 with
    | .error _ => ([], [])
    | .ok u =>
      (written (w.onTime batch now) (.ok u),
        written (w.lateOf batch now) (w.late.appendAt c (w.lateOf batch now) now instant).2)
  | _ => ([], [])

/-- The records a call appends, in the order of its batch. -/
def accepted (c : Codec) (w : SplitWal) : Call → List LogRecord
  | .append batch now instant =>
    match (w.main.append c (w.onTime batch now) instant).2,
      (w.late.appendAt c (w.lateOf batch now) now instant).2 with
    | .error _, _ => []
    | .ok _, .error _ => w.onTime batch now
    | .ok _, .ok _ => batch
  | _ => []

/-- A writer with everything appended through it and every count it returned. -/
structure Journal where
  wal : SplitWal
  main : List Batch
  late : List Batch
  records : List LogRecord
  counts : List ℕ

namespace Journal

def start (w : SplitWal) : Journal := ⟨w, [], [], [], []⟩

/-- The count a call returned, if it returned one. -/
def count (r : Except WalError (Option ℕ)) : Option ℕ := r.toOption.join

def step (c : Codec) (j : Journal) (call : Call) : Journal where
  wal := (j.wal.exec c call).1
  main := j.main ++ (j.wal.placed c call).1
  late := j.late ++ (j.wal.placed c call).2
  records := j.records ++ j.wal.accepted c call
  counts := j.counts ++ (count (j.wal.exec c call).2).toList

end Journal

/-! ## The two logs over a run -/

/-- The logs hold `ms` and `ls`, with the first `i` and `j` of those synced. -/
structure Holds (c : Codec) (w : SplitWal) (threshold : ℕ) (ms ls : List Batch) (i j : ℕ) :
    Prop where
  main : w.main.Logs c ms i
  late : w.late.Logs c ls j
  threshold : w.lateThresholdNanos = threshold

variable {c : Codec} {w : SplitWal} {threshold : ℕ} {ms ls : List Batch} {i j : ℕ}

theorem holds_open (lastMain lastLate : Option ℕ) (config : SplitConfig) (instant : ℕ)
    (uuids lateUuids : ℕ → Uuid) :
    Holds c (SplitWal.open lastMain lastLate config instant uuids lateUuids)
      config.thresholdNanos [] [] 0 0 := by
  refine ⟨WalWriter.logs_open .., ?_, rfl⟩
  obtain ⟨⟨m, hm, segs, cur, k, L, hbs, hk⟩, hr⟩ := WalWriter.logs_open (c := c) lastLate
    config.lateSegmentBytes config.fsyncInterval config.fsyncBytes instant lateUuids
  exact ⟨⟨m, hm, segs, cur, k, ⟨L.closed, L.current, L.synced, L.le, L.unsynced, L.ids,
    L.lastId⟩, hbs, hk⟩, hr⟩

theorem Holds.mono (h : Holds c w threshold ms ls i j) {i' j' : ℕ} (hi : i' ≤ i) (hj : j' ≤ j) :
    Holds c w threshold ms ls i' j' :=
  ⟨h.main.mono hi, h.late.mono hj, h.threshold⟩

/-- With no late record in it, a batch is its own on-time part. -/
theorem onTime_eq_self {batch : Batch} {now : ℕ}
    (h : batch.any (isLate w.lateThresholdNanos now) = false) :
    w.onTime batch now = batch ∧ w.lateOf batch now = [] := by
  have hall : ∀ r ∈ batch, isLate w.lateThresholdNanos now r = false := by simpa using h
  constructor
  · rw [onTime, List.filter_eq_self]
    intro r hr
    simp [hall r hr]
  · rw [lateOf, List.filter_eq_nil_iff]
    intro r hr
    simp [hall r hr]

theorem Holds.append (h : Holds c w threshold ms ls i j) (batch : Batch) (now instant : ℕ) :
    Holds c (w.append c batch now instant).1 threshold
      (ms ++ (w.placed c (.append batch now instant)).1)
      (ls ++ (w.placed c (.append batch now instant)).2) i j := by
  have hmain := h.main.append (w.onTime batch now) instant
  have hlate := h.late.appendAt (w.lateOf batch now) now instant
  unfold SplitWal.append
  split
  · next hlive =>
    obtain ⟨hon, hoff⟩ := onTime_eq_self (w := w) (by simpa using hlive)
    have hpl : w.placed c (.append batch now instant)
        = (written batch (w.main.append c batch instant).2, []) := by
      simp only [placed, hon, hoff]
      cases (w.main.append c batch instant).2 with
      | error e => rfl
      | ok u => rw [written_nil]
    rw [hon] at hmain
    rw [hpl, List.append_nil]
    exact ⟨hmain, h.late, h.threshold⟩
  · have hpart : batch.partition (isLate w.lateThresholdNanos now)
        = (w.lateOf batch now, w.onTime batch now) := List.partition_eq_filter_filter ..
    simp only [hpart, placed]
    rcases hm : w.main.append c (w.onTime batch now) instant with ⟨main, e | u⟩
    · rw [hm] at hmain
      exact ⟨by simpa [written] using hmain, by simpa using h.late, h.threshold⟩
    · rw [hm] at hmain
      exact ⟨hmain, hlate, h.threshold⟩

theorem Holds.sync (h : Holds c w threshold ms ls i j) (instant : ℕ) :
    Holds c (w.sync instant).1 threshold ms ls ms.length ls.length :=
  ⟨h.main.syncIfNeeded instant, h.late.syncIfNeeded instant, h.threshold⟩

/-- The count `sync` returns is the number of records in the two logs. -/
theorem Holds.sync_count (h : Holds c w threshold ms ls i j) (instant : ℕ) :
    (w.sync instant).2 = ms.flatten.length + ls.flatten.length := by
  have h' := h.sync instant
  rw [← h'.main.records, ← h'.late.records]
  rfl

/-- `maybe_sync` keeps what the logs hold, and a count it returns comes with both synced. -/
theorem Holds.maybeSync (h : Holds c w threshold ms ls i j) (now instant : ℕ) :
    Holds c (w.maybeSync now instant).1 threshold ms ls i j ∧
      ∀ n, (w.maybeSync now instant).2 = some n →
        n = ms.flatten.length + ls.flatten.length ∧
          Holds c (w.maybeSync now instant).1 threshold ms ls ms.length ls.length := by
  have hpolicy : Holds c { w with
      main := (w.main.maybeSync instant).1
      late := ((w.late.rollIfDue now instant).1.maybeSync instant).1 } threshold ms ls i j :=
    ⟨h.main.maybeSync instant, (h.late.rollIfDue now instant).maybeSync instant, h.threshold⟩
  unfold SplitWal.maybeSync
  simp only
  split
  · have hs := hpolicy.sync instant
    refine ⟨hs.mono h.main.le h.late.le, ?_⟩
    intro n hn
    obtain rfl := Option.some.inj hn
    exact ⟨hpolicy.sync_count instant, hs⟩
  · exact ⟨hpolicy, by simp⟩

/-- One call: the logs hold what they held and what the call placed there. A count the
call returns is the number of records in the logs, both then synced. -/
theorem Holds.exec (h : Holds c w threshold ms ls i j) (call : Call) :
    Holds c (w.exec c call).1 threshold (ms ++ (w.placed c call).1) (ls ++ (w.placed c call).2)
      i j ∧
      ∀ n, Journal.count (w.exec c call).2 = some n →
        n = ms.flatten.length + ls.flatten.length ∧ w.placed c call = ([], []) ∧
          w.accepted c call = [] ∧ Holds c (w.exec c call).1 threshold ms ls ms.length ls.length := by
  cases call with
  | append batch now instant =>
    refine ⟨h.append batch now instant, ?_⟩
    intro n hn
    simp only [SplitWal.exec, Journal.count] at hn
    rcases hr : (w.append c batch now instant).2 with e | u <;>
      simp [hr, Except.map, Except.toOption] at hn
  | maybeSync now instant =>
    obtain ⟨hkeep, hcount⟩ := h.maybeSync now instant
    refine ⟨by simpa [SplitWal.exec, placed] using hkeep, ?_⟩
    intro n hn
    obtain ⟨h1, h2⟩ := hcount n (by simpa [SplitWal.exec, Journal.count, Except.toOption] using hn)
    exact ⟨h1, rfl, rfl, h2⟩
  | sync instant =>
    have hs := h.sync instant
    refine ⟨by simpa [SplitWal.exec, placed] using hs.mono h.main.le h.late.le, ?_⟩
    intro n hn
    have hn' : (w.sync instant).2 = n := by
      simpa [SplitWal.exec, Journal.count, Except.toOption] using hn
    exact ⟨hn' ▸ h.sync_count instant, rfl, rfl, hs⟩
  | rollMain instant =>
    refine ⟨?_, by simp [SplitWal.exec, Journal.count, Except.toOption]⟩
    simpa [SplitWal.exec, placed] using
      (⟨(h.main.roll instant).mono h.main.le, h.late, h.threshold⟩ :
        Holds c { w with main := w.main.roll instant } threshold ms ls i j)

theorem appendAt_nil (c : Codec) (w : WalWriter) (now instant : ℕ) :
    w.appendAt c [] now instant = (w, .ok ()) := by
  simp [WalWriter.appendAt]

/-- An append that succeeds has appended its whole batch. -/
theorem accepted_of_ok {batch : Batch} {now instant : ℕ} {r : Option ℕ}
    (h : (w.exec c (.append batch now instant)).2 = .ok r) :
    w.accepted c (.append batch now instant) = batch := by
  simp only [SplitWal.exec, SplitWal.append] at h
  split at h
  · next hlive =>
    obtain ⟨hon, hoff⟩ := onTime_eq_self (w := w) (by simpa using hlive)
    simp only [accepted, hon, hoff, appendAt_nil]
    rcases hm : (w.main.append c batch instant).2 with e | u
    · simp [hm, Except.map] at h
    · rfl
  · have hpart : batch.partition (isLate w.lateThresholdNanos now)
        = (w.lateOf batch now, w.onTime batch now) := List.partition_eq_filter_filter ..
    simp only [hpart] at h
    simp only [accepted]
    rcases hm : w.main.append c (w.onTime batch now) instant with ⟨main, e | u⟩
    · simp [hm, Except.map] at h
    · simp only [hm] at h ⊢
      rcases hl : (w.late.appendAt c (w.lateOf batch now) now instant).2 with e | v
      · simp [hl, Except.map] at h
      · rfl

/-- Each record a call appends goes to exactly one of the two logs. -/
theorem perm_accepted (c : Codec) (w : SplitWal) (call : Call) :
    ((w.placed c call).1.flatten ++ (w.placed c call).2.flatten).Perm (w.accepted c call) := by
  cases call with
  | append batch now instant =>
    simp only [placed, accepted]
    rcases (w.main.append c (w.onTime batch now) instant).2 with e | u
    · exact List.Perm.refl _
    · rcases (w.late.appendAt c (w.lateOf batch now) now instant).2 with e | v
      · simp [written]
        split <;> simp_all
      · simp only [flatten_written_ok]
        refine List.perm_append_comm.trans ?_
        exact List.filter_append_perm (isLate w.lateThresholdNanos now) batch
  | maybeSync now instant => exact List.Perm.refl _
  | sync instant => exact List.Perm.refl _
  | rollMain instant => exact List.Perm.refl _

namespace Journal

/-- What a journal says of its writer. -/
structure Ok (c : Codec) (threshold : ℕ) (j : Journal) : Prop where
  holds : j.wal.Holds c threshold j.main j.late 0 0
  perm : (j.main.flatten ++ j.late.flatten).Perm j.records
  counts : ∀ m ∈ j.counts, m ≤ j.records.length

variable {jn : Journal}

theorem Ok.length (h : Ok c threshold jn) :
    jn.main.flatten.length + jn.late.flatten.length = jn.records.length := by
  rw [← List.length_append]
  exact h.perm.length_eq

theorem Ok.step (h : Ok c threshold jn) (call : Call) : Ok c threshold (jn.step c call) := by
  obtain ⟨hstep, hcount⟩ := h.holds.exec call
  refine ⟨hstep, ?_, ?_⟩
  · -- the new main batches move past the old late ones
    simp only [Journal.step, List.flatten_append, List.append_assoc]
    refine List.Perm.trans ?_ (h.perm.append (perm_accepted c jn.wal call))
    rw [List.append_assoc]
    refine List.Perm.append_left _ ?_
    rw [← List.append_assoc, ← List.append_assoc]
    exact List.Perm.append_right _ List.perm_append_comm
  · intro m hm
    simp only [Journal.step, List.length_append] at hm ⊢
    rcases List.mem_append.mp hm with hm | hm
    · have := h.counts m hm
      omega
    · obtain ⟨hn, -⟩ := hcount m (by simpa using hm)
      have := h.length
      omega

theorem ok_run (lastMain lastLate : Option ℕ) (config : SplitConfig) (instant : ℕ)
    (uuids lateUuids : ℕ → Uuid) (calls : List Call) :
    Ok c config.thresholdNanos (Runs.run (step c)
      (start (SplitWal.open lastMain lastLate config instant uuids lateUuids)) calls) := by
  refine Runs.run_invariant (fun _ call h => h.step call) ?_ calls
  exact ⟨holds_open .., List.Perm.refl _, by simp [start]⟩

/-- The first `n` records appended are all in synced bytes of their own log. -/
def Covers (c : Codec) (jn : Journal) (n : ℕ) : Prop :=
  ∃ ms ls, ms <+: jn.main ∧ ls <+: jn.late ∧ c.frames ms <+: jn.wal.main.syncedFrames ∧
    c.frames ls <+: jn.wal.late.syncedFrames ∧ (ms.flatten ++ ls.flatten).Perm (jn.records.take n)

/-- The first `n` records appended are the first `i` and `k` batches of the two logs, which
are synced. -/
def Synced (c : Codec) (threshold : ℕ) (jn : Journal) (n : ℕ) : Prop :=
  n ≤ jn.records.length ∧ ∃ i k, jn.wal.Holds c threshold jn.main jn.late i k ∧
    ((jn.main.take i).flatten ++ (jn.late.take k).flatten).Perm (jn.records.take n)

theorem Synced.covers {n : ℕ} (h : Synced c threshold jn n) : Covers c jn n := by
  obtain ⟨-, i, k, hh, hperm⟩ := h
  exact ⟨_, _, List.take_prefix i _, List.take_prefix k _, hh.main.frames_synced,
    hh.late.frames_synced, hperm⟩

/-- What is synced stays synced. -/
theorem Synced.step {n : ℕ} (h : Synced c threshold jn n) (call : Call) :
    Synced c threshold (jn.step c call) n := by
  obtain ⟨hn, i, k, hh, hperm⟩ := h
  refine ⟨by simp only [Journal.step, List.length_append]; omega, i, k, (hh.exec call).1, ?_⟩
  simp only [Journal.step]
  rw [List.take_append_of_le_length hh.main.le, List.take_append_of_le_length hh.late.le,
    List.take_append_of_le_length hn]
  exact hperm

/-- A count that a call returns is synced when it returns. -/
theorem Ok.synced_of_count (h : Ok c threshold jn) {call : Call} {n : ℕ}
    (hn : count (jn.wal.exec c call).2 = some n) :
    n = (jn.step c call).records.length ∧ Synced c threshold (jn.step c call) n := by
  obtain ⟨hlen, hplaced, haccepted, hsync⟩ := (h.holds.exec call).2 n hn
  have hrecords : (jn.step c call).records = jn.records := by simp [Journal.step, haccepted]
  have hn' : n = (jn.step c call).records.length := by
    rw [hrecords, hlen]
    exact h.length
  refine ⟨hn', hn'.le, jn.main.length, jn.late.length, ?_, ?_⟩
  · simpa [Journal.step, hplaced] using hsync
  · rw [List.take_of_length_le hn'.ge, hrecords]
    simpa [Journal.step, hplaced] using h.perm

end Journal

/-- **The published count is never ahead of durability.** Take any sequence of calls on
an opened `SplitWal`, with any batches and clock readings, failed appends among them,
followed by one that returns a count `n`. Then `n` is the number of records appended so
far; the synced bytes of each log are exactly the frames of what was appended to it, and
the two logs together hold the first `n` records; and no count returned before is larger. -/
theorem published_count_durable (c : Codec) (lastMain lastLate : Option ℕ) (config : SplitConfig)
    (instant : ℕ) (uuids lateUuids : ℕ → Uuid) (calls : List Call) (call : Call)
    (before after : Journal) (n : ℕ)
    (hbefore : before = Runs.run (Journal.step c)
      (.start (SplitWal.open lastMain lastLate config instant uuids lateUuids)) calls)
    (hafter : after = before.step c call)
    (hcall : (before.wal.exec c call).2 = .ok (some n)) :
    n = after.records.length ∧
      after.wal.main.syncedFrames = c.frames after.main ∧
      after.wal.late.syncedFrames = c.frames after.late ∧
      (after.main.flatten ++ after.late.flatten).Perm (after.records.take n) ∧
      ∀ m ∈ before.counts, m ≤ n := by
  have h := Journal.ok_run (c := c) lastMain lastLate config instant uuids lateUuids calls
  rw [← hbefore] at h
  obtain ⟨hn, hplaced, haccepted, hsync⟩ := (h.holds.exec call).2 n (by rw [hcall]; rfl)
  -- a call that returns a count appends nothing
  have hmain : after.main = before.main := by simp [hafter, Journal.step, hplaced]
  have hlate : after.late = before.late := by simp [hafter, Journal.step, hplaced]
  have hrecords : after.records = before.records := by simp [hafter, Journal.step, haccepted]
  have hlen : n = before.records.length := hn.trans h.length
  have hwal : after.wal = (before.wal.exec c call).1 := by rw [hafter]; rfl
  rw [hmain, hlate, hrecords, hwal]
  refine ⟨hlen, hsync.main.syncedFrames_eq, hsync.late.syncedFrames_eq, ?_, ?_⟩
  · rw [List.take_of_length_le hlen.ge]
    exact h.perm
  · intro m hm
    exact (h.counts m hm).trans hlen.ge

/-- The settings of a small log: one megabyte segments, a sync each second. -/
def smallConfig : SplitConfig where
  segmentBytes := 1048576
  fsyncInterval := 1000
  fsyncBytes := 1048576
  lateThreshold := 100
  lateRoll := 1000
  lateSegmentBytes := 1048576

/-- A live and a late record in one batch, published by one sync of both logs. -/
theorem published_count_durable_two_logs :
    let uuid := Uuid.nowV7 1 (List.replicate 10 0) length_zeros
    let before := Runs.run (Journal.step Postcard.codec)
      (.start (SplitWal.open none none smallConfig 0 (fun _ => uuid) (fun _ => uuid)))
      [.append [.new uuid 1000 .INFO ['a'], .new uuid 10 .INFO ['b']] 1000 5]
    let after := before.step Postcard.codec (.maybeSync 1000 1000)
    after.counts = [2] ∧
      after.wal.main.syncedFrames = Postcard.codec.frames after.main ∧
      after.wal.late.syncedFrames = Postcard.codec.frames after.late := by
  intro uuid before after
  have hcall : (before.wal.exec Postcard.codec (.maybeSync 1000 1000)).2 = .ok (some 2) := by
    decide +kernel
  obtain ⟨-, hmain, hlate, -, -⟩ := published_count_durable Postcard.codec none none smallConfig 0
    (fun _ => uuid) (fun _ => uuid) _ (.maybeSync 1000 1000) before after 2 rfl rfl hcall
  exact ⟨by decide +kernel, hmain, hlate⟩

end SplitWal

end LogLess.Wal
