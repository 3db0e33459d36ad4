import LogLess.Store.ExactlyOnce

/-!
# Scanning the committed store

A scan skips whole files by the directories they are in, row groups by the range of their
times, and decodes what is left until it has as many rows as it may return. `scan_exact_iff`
says for which stores and queries what it returns is exact; `Pruned` rows and a number of rows
that is the limit are what can go wrong.

A file is its path and its row groups, and the rows of a group are the records they decode
to. A file that cannot be opened or read fails the whole scan and is not modelled.
-/

namespace LogLess.Store

/-! ## Files as a reader sees them -/

/-- Rows, and the least and the greatest `timestamp` if the footer has them. -/
structure RowGroup where
  rows : List LogRecord
  timestamps : Option (ℤ × ℤ)

structure ParquetFile where
  path : Path
  groups : List RowGroup

def ParquetFile.rows (f : ParquetFile) : List LogRecord := f.groups.flatMap RowGroup.rows

/-- `ROW_GROUP_ROWS`. -/
def rowGroupRows : ℕ := 8 * 1024

/-- Rows of a batch of the reader. -/
def batchRows : ℕ := 1024

/-- A record as its row decodes: times are `i64`s, and below zero they are read as zero. What
comes back of the attributes is a parameter. -/
def readBack (attributes : LogRecord → List Attr) (r : LogRecord) : LogRecord :=
  { r with
    timestampUnixNano := (toI64 r.timestampUnixNano).toNat
    observedUnixNano := (toI64 r.observedUnixNano).toNat
    attributes := attributes r }

/-- The file that `write_partition_file_with` makes of some rows. -/
def ParquetFile.ofRows (attributes : LogRecord → List Attr) (path : Path)
    (records : List LogRecord) : ParquetFile where
  path := path
  groups := (Lists.chunks rowGroupRows records.length records).map fun rows =>
    ⟨rows.map (readBack attributes),
      some (timeRange (rows.map fun r => toI64 r.timestampUnixNano))⟩

/-! ## Queries -/

structure Query where
  /-- Inclusive, like every bound below a time. -/
  fromUnixNano : Option ℕ
  /-- Exclusive. -/
  untilUnixNano : Option ℕ
  service : Option Text
  minSeverity : Option Severity
  contains : Option Text
  limit : ℕ

structure ScanStats where
  filesConsidered : ℕ
  filesPrunedByPartition : ℕ
  rowGroupsPruned : ℕ
  rowsScanned : ℕ
  rowsMatched : ℕ
deriving DecidableEq

structure ScanResult where
  records : List LogRecord
  stats : ScanStats
  truncated : Bool

/-- The class a bucket is taken to hold by its name. -/
def bucketMax (level : Text) : Option LevelClass :=
  if level = "debug".toList then some .debug
  else if level = "info".toList then some .info
  else if level = "warn_plus".toList then some .warnPlus
  else none

section

variable (q : Query)

/-- `partition_matches`. The end of the last hour that a time is in wraps around. -/
def partitionMatches (path : Path) : Bool :=
  match keyOfPath path with
  | none => true
  | some key =>
    let hourEnd := (key.epochHour + 1) * nanosPerHour % 2 ^ 64
    let hourStart := key.epochHour * nanosPerHour % 2 ^ 64
    if q.fromUnixNano.any fun t => hourEnd ≤ t then false
    else if q.untilUnixNano.any fun t => t ≤ hourStart then false
    else
      match q.minSeverity, bucketMax key.bucket with
      | some s, some bucket => s.class.rank ≤ bucket.rank
      | _, _ => true

/-- `i64 as u64`. -/
def asU64 (n : ℤ) : ℕ := (n % 2 ^ 64).toNat

/-- `row_group_matches`. -/
def rowGroupMatches (g : RowGroup) : Bool :=
  let t₀ := q.fromUnixNano.getD 0
  let t₁ := q.untilUnixNano.getD (2 ^ 64 - 1)
  match g.timestamps with
  | some (least, greatest) => t₀ ≤ asU64 greatest && asU64 least < t₁
  | none => true

/-- `matches`. -/
def matchesRow (r : LogRecord) : Bool :=
  if q.fromUnixNano.any fun t => r.timestampUnixNano < t then false
  else if q.untilUnixNano.any fun t => t ≤ r.timestampUnixNano then false
  else if q.service.any fun s => r.service != some s then false
  else if q.minSeverity.any fun s => r.severity.num < s.num then false
  else q.contains.all fun needle => needle <:+: r.body

/-! ## The scan -/

/-- The rows of a batch that match, up to the one that fills what remains. -/
def scanBatch (remaining : ℕ) : List LogRecord → List LogRecord → List LogRecord × Bool
  | out, [] => (out, false)
  | out, r :: rows =>
    if matchesRow q r then
      if remaining ≤ (out ++ [r]).length then (out ++ [r], true)
      else scanBatch remaining (out ++ [r]) rows
    else scanBatch remaining out rows

/-- The batches of a file, and how many rows were decoded. -/
def scanBatches (remaining : ℕ) : List LogRecord → ℕ → List (List LogRecord) →
    List LogRecord × ℕ
  | out, scanned, [] => (out, scanned)
  | out, scanned, batch :: batches =>
    match scanBatch q remaining out batch with
    | (out, true) => (out, scanned + batch.length)
    | (out, false) => scanBatches remaining out (scanned + batch.length) batches

/-- `scan_file`: what matches, the row groups skipped, and the rows decoded. -/
def scanFile (f : ParquetFile) (remaining : ℕ) : List LogRecord × ℕ × ℕ :=
  let keep := f.groups.filter (rowGroupMatches q)
  let pruned := (f.groups.filter fun g => !rowGroupMatches q g).length
  let rows := keep.flatMap RowGroup.rows
  let (out, scanned) := scanBatches q remaining [] 0 (Lists.chunks batchRows rows.length rows)
  (out, pruned, scanned)

/-- The loop of `scan` over the files. -/
def scanFiles : ScanResult → List ParquetFile → ScanResult
  | s, [] => s
  | s, f :: files =>
    let considered := s.stats.filesConsidered + 1
    if partitionMatches q f.path then
      let (found, groupSkips, rows) := scanFile q f (q.limit - s.records.length)
      let records := s.records ++ found
      let stats : ScanStats :=
        ⟨considered, s.stats.filesPrunedByPartition, s.stats.rowGroupsPruned + groupSkips,
          s.stats.rowsScanned + rows, s.stats.rowsMatched + found.length⟩
      if q.limit ≤ records.length then ⟨records, stats, true⟩
      else scanFiles ⟨records, stats, s.truncated⟩ files
    else
      scanFiles { s with stats := { s.stats with
        filesConsidered := considered
        filesPrunedByPartition := s.stats.filesPrunedByPartition + 1 } } files

/-- The order of `files_by_hour`. -/
def fileLe (a b : ParquetFile) : Bool :=
  ((compare ((keyOfPath a.path).map PartitionKey.epochHour)
    ((keyOfPath b.path).map PartitionKey.epochHour)).then (compare a.path b.path)).isLE

/-- `files_by_hour`. -/
def filesByHour (files : List ParquetFile) : List ParquetFile :=
  files.insertionSort fun a b => fileLe a b = true

/-- `scan`: newest hour first, the result in the order of time. -/
def scan (files : List ParquetFile) : ScanResult :=
  let result := scanFiles q ⟨[], ⟨0, 0, 0, 0, 0⟩, false⟩ (filesByHour files).reverse
  { result with records := Lists.sortByKey LogRecord.timestampUnixNano result.records }

/-! ## What is there to find -/

/-- The rows of the store that satisfy the filter of the query. -/
def matching (files : List ParquetFile) : List LogRecord :=
  (files.flatMap ParquetFile.rows).filter (matchesRow q)

/-- Those of a file that are in row groups the scan decodes. -/
def visible (f : ParquetFile) : List LogRecord :=
  ((f.groups.filter (rowGroupMatches q)).flatMap RowGroup.rows).filter (matchesRow q)

/-- Those in files that the scan opens and row groups that it decodes, in their order. -/
def visibleIn (files : List ParquetFile) : List LogRecord :=
  (files.filter fun f => partitionMatches q f.path).flatMap (visible q)

/-- Those in files and row groups that are skipped. -/
def hiddenIn (files : List ParquetFile) : List LogRecord :=
  files.flatMap fun f =>
    if partitionMatches q f.path then
      ((f.groups.filter fun g => !rowGroupMatches q g).flatMap RowGroup.rows).filter (matchesRow q)
    else f.rows.filter (matchesRow q)

variable {q}

theorem scanBatch_eq {remaining : ℕ} {out : List LogRecord} (rows : List LogRecord)
    (h : out.length < max remaining 1) :
    scanBatch q remaining out rows
      = (out ++ (rows.filter (matchesRow q)).take (max remaining 1 - out.length),
        decide (max remaining 1 ≤ out.length + (rows.filter (matchesRow q)).length)) := by
  induction rows generalizing out with
  | nil =>
    have hroom : ¬ max remaining 1 ≤ out.length := by omega
    refine Prod.ext (by simp [scanBatch]) ?_
    exact (decide_eq_false hroom).symm
  | cons r rows ih =>
    unfold scanBatch
    split
    · next hr =>
      have hlen : (out ++ [r]).length = out.length + 1 := by simp
      have hroom : max remaining 1 - out.length = max remaining 1 - (out.length + 1) + 1 := by
        omega
      rw [List.filter_cons_of_pos hr, List.length_cons, hroom, List.take_succ_cons, hlen]
      split
      · next hfull =>
        rw [show max remaining 1 - (out.length + 1) = 0 by omega, List.take_zero]
        simp only [Prod.mk.injEq, true_and]
        exact (decide_eq_true (by omega)).symm
      · next hfull =>
        rw [ih (by omega), hlen, List.append_assoc, List.singleton_append]
        congr 2
        simp only [eq_iff_iff]
        omega
    · next hr => rw [List.filter_cons_of_neg hr, ih h]

theorem scanBatches_fst {remaining : ℕ} {out : List LogRecord} (scanned : ℕ)
    (batches : List (List LogRecord)) (h : out.length < max remaining 1) :
    (scanBatches q remaining out scanned batches).1
      = out ++ (batches.flatten.filter (matchesRow q)).take (max remaining 1 - out.length) := by
  induction batches generalizing out scanned with
  | nil => simp [scanBatches]
  | cons batch batches ih =>
    rw [List.flatten_cons, List.filter_append, List.take_append]
    unfold scanBatches
    rw [scanBatch_eq batch h]
    by_cases hfull : max remaining 1 ≤ out.length + (batch.filter (matchesRow q)).length
    · rw [decide_eq_true hfull]
      rw [show max remaining 1 - out.length - (batch.filter (matchesRow q)).length = 0 by omega]
      simp
    · rw [decide_eq_false hfull]
      have hall : (batch.filter (matchesRow q)).take (max remaining 1 - out.length)
          = batch.filter (matchesRow q) := List.take_of_length_le (by omega)
      rw [hall, ih _ (by rw [List.length_append]; omega), List.length_append, List.append_assoc,
        Nat.sub_sub]

/-- What one file gives: its visible rows up to what remains, and at least one of them. -/
theorem scanFile_fst (f : ParquetFile) (remaining : ℕ) :
    (scanFile q f remaining).1 = (visible q f).take (max remaining 1) := by
  unfold scanFile
  rw [scanBatches_fst _ _ (by simp), Lists.flatten_chunks (by decide) le_rfl]
  rfl

/-- A scan with a limit: visible rows until it is reached. -/
theorem scanFiles_eq {s : ScanResult} (files : List ParquetFile) (hs : s.truncated = false)
    (h : s.records.length < q.limit) :
    (scanFiles q s files).records
        = s.records ++ (visibleIn q files).take (q.limit - s.records.length) ∧
      (scanFiles q s files).truncated
        = decide (q.limit ≤ s.records.length + (visibleIn q files).length) := by
  induction files generalizing s with
  | nil => simpa [scanFiles, visibleIn, hs] using h
  | cons f files ih =>
    unfold scanFiles
    split
    · next hopen =>
      have hin : visibleIn q (f :: files) = visible q f ++ visibleIn q files := by
        simp only [visibleIn, List.filter_cons, hopen, if_true, List.flatMap_cons]
      have hfound := scanFile_fst (q := q) f (q.limit - s.records.length)
      rw [show max (q.limit - s.records.length) 1 = q.limit - s.records.length by omega] at hfound
      simp only [hfound, List.length_append, List.length_take]
      rw [hin, List.take_append, List.length_append]
      by_cases hfull : q.limit ≤ s.records.length + (visible q f).length
      · rw [if_pos (by omega), show q.limit - s.records.length - (visible q f).length = 0 by omega]
        refine ⟨by simp, (decide_eq_true (by omega)).symm⟩
      · rw [if_neg (by omega)]
        have hall : (visible q f).take (q.limit - s.records.length) = visible q f :=
          List.take_of_length_le (by omega)
        rw [hall]
        obtain ⟨hrecords, htruncated⟩ := ih (s := ⟨s.records ++ visible q f, _, s.truncated⟩) hs
          (by rw [List.length_append]; omega)
        refine ⟨?_, ?_⟩
        · rw [hrecords, List.length_append, List.append_assoc, Nat.sub_sub]
        · rw [htruncated, List.length_append, Nat.add_assoc]
    · next hskip =>
      have hin : visibleIn q (f :: files) = visibleIn q files := by
        simp only [visibleIn, List.filter_cons, hskip, Bool.false_eq_true, if_false]
      rw [hin]
      exact ih hs h

/-- A scan with limit zero looks into the first file it opens, for one row. -/
theorem scanFiles_zero {s : ScanResult} (files : List ParquetFile) (hs : s.truncated = false)
    (hrecords : s.records = []) (h : q.limit = 0) :
    ((scanFiles q s files).records, (scanFiles q s files).truncated)
      = match files.find? fun f => partitionMatches q f.path with
        | none => ([], false)
        | some f => ((visible q f).take 1, true) := by
  induction files generalizing s with
  | nil => simp [scanFiles, hs, hrecords]
  | cons f files ih =>
    unfold scanFiles
    split
    · next hopen =>
      simp [hopen, scanFile_fst, h, hrecords]
    · next hskip =>
      simp only [List.find?_cons, hskip]
      exact ih hs hrecords

theorem perm_filesByHour (files : List ParquetFile) : (filesByHour files).reverse.Perm files :=
  (List.reverse_perm _).trans (List.perm_insertionSort _ files)

theorem perm_visibleIn {files files' : List ParquetFile} (h : files.Perm files') :
    (visibleIn q files).Perm (visibleIn q files') :=
  (h.filter _).flatMap_right _

/-- A matching row is visible or hidden. -/
theorem perm_matching (files : List ParquetFile) :
    (matching q files).Perm (visibleIn q files ++ hiddenIn q files) := by
  induction files with
  | nil => exact .refl _
  | cons f files ih =>
    have hcons : matching q (f :: files) = f.rows.filter (matchesRow q) ++ matching q files := by
      simp only [matching, List.flatMap_cons, List.filter_append]
    rw [hcons]
    simp only [visibleIn, hiddenIn, List.filter_cons, List.flatMap_cons] at ih ⊢
    by_cases hopen : partitionMatches q f.path = true
    · have hgroups : (f.rows.filter (matchesRow q)).Perm (visible q f
          ++ ((f.groups.filter fun g => !rowGroupMatches q g).flatMap RowGroup.rows).filter
            (matchesRow q)) := by
        rw [visible, ← List.filter_append, ← List.flatMap_append]
        exact ((List.filter_append_perm _ _).symm.flatMap_right _).filter _
      simp only [hopen, if_true, List.flatMap_cons]
      refine (hgroups.append ih).trans ?_
      rw [List.append_assoc, List.append_assoc]
      refine List.Perm.append_left _ ?_
      rw [← List.append_assoc, ← List.append_assoc]
      exact List.perm_append_comm.append_right _
    · simp only [hopen, Bool.false_eq_true, if_false]
      refine (List.Perm.append_left _ ih).trans ?_
      rw [← List.append_assoc, ← List.append_assoc]
      exact List.perm_append_comm.append_right _

/-! ## When a scan is exact -/

variable (q)

/-- Below the limit every matching row is returned; there are no more rows than the limit; and
`truncated` says whether a matching row was left out. -/
structure Exact (files : List ParquetFile) : Prop where
  complete : (scan q files).records.length < q.limit →
    (scan q files).records.Perm (matching q files)
  bounded : (scan q files).records.length ≤ q.limit
  truncated_iff : (scan q files).truncated = true ↔
    ∃ r, (scan q files).records.count r < (matching q files).count r

/-- With a limit: no matching row is hidden if the visible ones are fewer than it, and one is if
they are exactly as many. Without one: the newest file that is opened, if any is, shows no
match, though the store has one. -/
def LimitFits (files : List ParquetFile) : Prop :=
  if q.limit = 0 then
    match (filesByHour files).reverse.find? fun f => partitionMatches q f.path with
    | none => matching q files = []
    | some f => visible q f = [] ∧ matching q files ≠ []
  else
    ((visibleIn q files).length < q.limit → hiddenIn q files = []) ∧
      ((visibleIn q files).length = q.limit → hiddenIn q files ≠ [])

variable {q}

theorem count_lt_iff_length_lt {l l' : List LogRecord} (h : l.Subperm l') :
    (∃ r, l.count r < l'.count r) ↔ l.length < l'.length := by
  constructor
  · rintro ⟨r, hr⟩
    refine lt_of_le_of_ne h.length_le fun hlen => ?_
    rw [(h.perm_of_length_le hlen.ge).count_eq r] at hr
    exact lt_irrefl _ hr
  · intro hlen
    by_contra hall
    have hle : ∀ r, l'.count r ≤ l.count r := fun r => not_lt.mp fun hr => hall ⟨r, hr⟩
    exact absurd ((List.subperm_ext_iff.mpr fun r _ => hle r).length_le) (by omega)

/-- Rows returned are matching rows, so that it is enough to count them. -/
theorem exact_iff_lengths {files : List ParquetFile} {n m : ℕ} {truncated : Bool}
    (hsub : (scan q files).records.Subperm (matching q files))
    (hn : (scan q files).records.length = n) (hm : (matching q files).length = m)
    (ht : (scan q files).truncated = truncated) :
    Exact q files ↔ (n < q.limit → m ≤ n) ∧ n ≤ q.limit ∧ (truncated = true ↔ n < m) := by
  subst hn hm ht
  constructor
  · intro h
    refine ⟨fun hlt => (h.complete hlt).length_eq.ge, h.bounded, ?_⟩
    rw [h.truncated_iff, count_lt_iff_length_lt hsub]
  · rintro ⟨hcomplete, hbounded, htruncated⟩
    refine ⟨fun hlt => hsub.perm_of_length_le (hcomplete hlt), hbounded, ?_⟩
    rw [htruncated, count_lt_iff_length_lt hsub]

/-- The rows of a scan with a limit. -/
theorem scan_records (files : List ParquetFile) (h : 0 < q.limit) :
    (scan q files).records.Perm ((visibleIn q (filesByHour files).reverse).take q.limit) ∧
      (scan q files).truncated = decide (q.limit ≤ (visibleIn q files).length) := by
  obtain ⟨hrecords, htruncated⟩ := scanFiles_eq (s := ⟨[], ⟨0, 0, 0, 0, 0⟩, false⟩)
    (filesByHour files).reverse rfl h
  constructor
  · refine (Lists.perm_sortByKey _ _).trans ?_
    rw [hrecords]
    exact .refl _
  · rw [scan, htruncated, (perm_visibleIn (perm_filesByHour files)).length_eq]
    simp

theorem exact_iff_of_pos {files : List ParquetFile} (h : 0 < q.limit) :
    Exact q files ↔ ((visibleIn q files).length < q.limit → hiddenIn q files = []) ∧
      ((visibleIn q files).length = q.limit → hiddenIn q files ≠ []) := by
  obtain ⟨hrecords, htruncated⟩ := scan_records files h
  have hvisible := perm_visibleIn (q := q) (perm_filesByHour files)
  have hmatching := perm_matching (q := q) files
  have hsub : (scan q files).records.Subperm (matching q files) :=
    (hrecords.subperm.trans (List.take_sublist _ _).subperm).trans
      ((hvisible.subperm.trans (List.sublist_append_left _ _).subperm).trans hmatching.symm.subperm)
  have hn : (scan q files).records.length = min q.limit (visibleIn q files).length := by
    rw [hrecords.length_eq, List.length_take, hvisible.length_eq]
  have hm : (matching q files).length
      = (visibleIn q files).length + (hiddenIn q files).length := by
    rw [hmatching.length_eq, List.length_append]
  rw [exact_iff_lengths hsub hn hm htruncated, ← List.length_eq_zero_iff, decide_eq_true_eq,
    ne_eq, ← List.length_eq_zero_iff]
  omega

theorem exact_iff_of_zero {files : List ParquetFile} (h : q.limit = 0) :
    Exact q files ↔
      match (filesByHour files).reverse.find? fun f => partitionMatches q f.path with
      | none => matching q files = []
      | some f => visible q f = [] ∧ matching q files ≠ [] := by
  have hscan := scanFiles_zero (s := ⟨[], ⟨0, 0, 0, 0, 0⟩, false⟩) (filesByHour files).reverse
    rfl rfl h
  -- a result without rows
  have hempty : (scan q files).records = [] → (Exact q files ↔
      ((scan q files).truncated = true ↔ matching q files ≠ [])) := by
    intro hnil
    have hsub : (scan q files).records.Subperm (matching q files) := by
      rw [hnil]
      exact List.nil_subperm
    have hlen : (scan q files).records.length = 0 := List.length_eq_zero_iff.mpr hnil
    rw [exact_iff_lengths hsub hlen rfl rfl, List.length_pos_iff]
    simp [h]
  split at hscan
  · next hfind =>
    obtain ⟨hrecords, htruncated⟩ := Prod.mk.inj hscan
    have hnil : (scan q files).records = [] := by
      rw [scan, hrecords]
      rfl
    rw [hempty hnil, scan, htruncated]
    simp
  · next f hfind =>
    obtain ⟨hrecords, htruncated⟩ := Prod.mk.inj hscan
    have hperm : (scan q files).records.Perm ((visible q f).take 1) := by
      rw [← hrecords]
      exact Lists.perm_sortByKey _ _
    have hlen : (scan q files).records.length = min 1 (visible q f).length := by
      rw [hperm.length_eq, List.length_take]
    have htrue : (scan q files).truncated = true := htruncated
    constructor
    · intro hexact
      have hvisible : visible q f = [] := by
        have := hexact.bounded
        exact List.length_eq_zero_iff.mp (by omega)
      have hnil : (scan q files).records = [] :=
        List.length_eq_zero_iff.mp (by rw [hlen, hvisible]; rfl)
      exact ⟨hvisible, ((hempty hnil).mp hexact).mp htrue⟩
    · rintro ⟨hvisible, hmatching⟩
      have hnil : (scan q files).records = [] :=
        List.length_eq_zero_iff.mp (by rw [hlen, hvisible]; rfl)
      exact (hempty hnil).mpr ⟨fun _ => hmatching, fun _ => htrue⟩

/-! ## Stores that merges write -/

/-- The name of the bucket a severity has in an index. -/
def bucketName (tenancy : Tenancy) (tenant index : Text) (severity : Severity) : Text :=
  let buckets := (tenancy.buckets tenant index).getD tenancy.defaultBuckets
  ((buckets.bucketFor severity).map LevelBucket.name).getD []

/-- The partition has the hour and the bucket of the row. -/
def FiledUnder (tenancy : Tenancy) (key : PartitionKey) (r : LogRecord) : Prop :=
  key.epochHour = r.timestampUnixNano / nanosPerHour ∧
    key.bucket = bucketName tenancy key.tenant key.index r.severity

theorem filedUnder_partitionOf (tenancy : Tenancy) (r : LogRecord) :
    FiledUnder tenancy (partitionOf tenancy r).1 r := ⟨rfl, rfl⟩

/-- A merge files rows so. -/
theorem filedUnder_segmentRows {δ : Type} (addLine : Miner δ) {tenancy : Tenancy} {now : ℕ}
    {state : δ × MergeReport} {batches : List Wal.Batch} {key : PartitionKey} {rows : List LogRecord}
    (h : (key, rows) ∈ (segmentRows tenancy addLine now state batches).2) {r : LogRecord}
    (hr : r ∈ rows) : FiledUnder tenancy key r := by
  obtain ⟨r', -, rfl, hbare⟩ := (mem_segmentRows tenancy addLine now state batches).mp
    ⟨rows, h, List.mem_map_of_mem hr⟩
  have htime : (bare (withoutRouting r')).timestampUnixNano = (bare r).timestampUnixNano := by
    rw [hbare]
  have hseverity : (bare (withoutRouting r')).severity = (bare r).severity := by rw [hbare]
  simp only [bare, withoutRouting] at htime hseverity
  have hfiled := filedUnder_partitionOf tenancy r'
  unfold FiledUnder at hfiled ⊢
  rwa [htime, hseverity] at hfiled

/-- A file in a directory that its rows belong to, with times that an `i64` holds. -/
def Written (tenancy : Tenancy) (attributes : LogRecord → List Attr) (f : ParquetFile) : Prop :=
  ∃ (key : PartitionKey) (name : Text) (records : List LogRecord), key.Valid ∧
    f = .ofRows attributes (key.dir ++ [name]) records ∧
    ∀ r ∈ records, FiledUnder tenancy key r ∧ r.timestampUnixNano < 2 ^ 63

/-- A bucket with the name of a class holds no severity of a higher one. -/
def BucketsNamed (tenancy : Tenancy) : Prop :=
  ∀ tenant index severity, ∀ c ∈ bucketMax (bucketName tenancy tenant index severity),
    severity.class.rank ≤ c.rank

theorem foldl_min_spec (t : ℤ) (ts : List ℤ) :
    ts.foldl min t ∈ t :: ts ∧ ∀ x ∈ t :: ts, ts.foldl min t ≤ x := by
  induction ts generalizing t with
  | nil => simp
  | cons y ts ih =>
    obtain ⟨hmem, hle⟩ := ih (min t y)
    rw [List.foldl_cons]
    have hmin := hle (min t y) List.mem_cons_self
    constructor
    · rcases List.mem_cons.mp hmem with h | h
      · rw [h]
        rcases min_choice t y with h | h <;> simp [h]
      · simp [h]
    · intro x hx
      rcases List.mem_cons.mp hx with rfl | hx
      · exact hmin.trans (min_le_left _ _)
      · rcases List.mem_cons.mp hx with rfl | hx
        · exact hmin.trans (min_le_right _ _)
        · exact hle x (List.mem_cons_of_mem _ hx)

theorem foldl_max_spec (t : ℤ) (ts : List ℤ) :
    ts.foldl max t ∈ t :: ts ∧ ∀ x ∈ t :: ts, x ≤ ts.foldl max t := by
  induction ts generalizing t with
  | nil => simp
  | cons y ts ih =>
    obtain ⟨hmem, hle⟩ := ih (max t y)
    rw [List.foldl_cons]
    have hmax := hle (max t y) List.mem_cons_self
    constructor
    · rcases List.mem_cons.mp hmem with h | h
      · rw [h]
        rcases max_choice t y with h | h <;> simp [h]
      · simp [h]
    · intro x hx
      rcases List.mem_cons.mp hx with rfl | hx
      · exact (le_max_left _ _).trans hmax
      · rcases List.mem_cons.mp hx with rfl | hx
        · exact (le_max_right _ _).trans hmax
        · exact hle x (List.mem_cons_of_mem _ hx)

/-- The range of some times holds each of them and has its ends among them. -/
theorem timeRange_spec {ts : List ℤ} {t : ℤ} (h : t ∈ ts) :
    (timeRange ts).1 ≤ t ∧ t ≤ (timeRange ts).2 ∧
      (timeRange ts).1 ∈ ts ∧ (timeRange ts).2 ∈ ts := by
  cases ts with
  | nil => cases h
  | cons x ts =>
    obtain ⟨hmin, hle⟩ := foldl_min_spec x ts
    obtain ⟨hmax, hge⟩ := foldl_max_spec x ts
    exact ⟨hle t h, hge t h, hmin, hmax⟩

theorem class_rank_mono {a b : Severity} (h : a.num ≤ b.num) : a.class.rank ≤ b.class.rank := by
  have h' := UInt8.le_iff_toNat_le.mp h
  simp only [Severity.class, UInt8.le_iff_toNat_le]
  split_ifs <;> simp_all [LevelClass.rank] <;> omega

theorem matchesRow_iff (r : LogRecord) : matchesRow q r = true ↔
    (∀ t ∈ q.fromUnixNano, t ≤ r.timestampUnixNano) ∧
      (∀ t ∈ q.untilUnixNano, r.timestampUnixNano < t) ∧
      (∀ s ∈ q.service, r.service = some s) ∧
      (∀ s ∈ q.minSeverity, s.num ≤ r.severity.num) ∧
      ∀ needle ∈ q.contains, needle <:+: r.body := by
  unfold matchesRow
  simp only [Option.mem_def, Bool.if_false_left, Bool.and_eq_true, Bool.not_eq_true',
    decide_eq_false_iff_not, Bool.not_eq_true, Option.any_eq_false, Option.all_eq_true,
    decide_eq_true_eq, bne_eq_false_iff_eq, Nat.not_lt, Nat.not_le, UInt8.not_lt]

theorem partitionMatches_of_filed {tenancy : Tenancy} (hnamed : BucketsNamed tenancy)
    {key : PartitionKey} (hvalid : key.Valid) (name : Text) {r : LogRecord}
    (hfiled : FiledUnder tenancy key r) (ht : r.timestampUnixNano < 2 ^ 63)
    (hr : matchesRow q r = true) : partitionMatches q (key.dir ++ [name]) = true := by
  obtain ⟨hfrom, huntil, -, hmin, -⟩ := (matchesRow_iff r).mp hr
  obtain ⟨hhour, hbucket⟩ := hfiled
  have hdiv := Nat.div_add_mod r.timestampUnixNano nanosPerHour
  have hmod := Nat.mod_lt r.timestampUnixNano (show 0 < nanosPerHour by decide)
  unfold nanosPerHour at hdiv hmod hhour
  have hend : r.timestampUnixNano < (key.epochHour + 1) * nanosPerHour % 2 ^ 64 := by
    unfold nanosPerHour
    omega
  have hstart : key.epochHour * nanosPerHour % 2 ^ 64 ≤ r.timestampUnixNano := by
    unfold nanosPerHour
    omega
  unfold partitionMatches
  rw [keyOfPath_dir hvalid]
  simp only
  rw [if_neg, if_neg]
  · split
    · next s c hs hc =>
      have hclass := hnamed key.tenant key.index r.severity c (by rw [← hbucket]; exact hc)
      exact decide_eq_true ((class_rank_mono (hmin s hs)).trans hclass)
    · rfl
  · rw [Option.any_eq_true]
    rintro ⟨t, htm, hle⟩
    have := huntil t htm
    simp only [decide_eq_true_eq] at hle
    omega
  · rw [Option.any_eq_true]
    rintro ⟨t, htm, hle⟩
    have := hfrom t htm
    simp only [decide_eq_true_eq] at hle
    omega

theorem asU64_toI64 {n : ℕ} (h : n < 2 ^ 63) : asU64 (toI64 n) = n := by
  unfold asU64 toI64
  rw [if_pos (by omega)]
  omega

theorem rowGroupMatches_of_mem {rows : List LogRecord} {g : RowGroup}
    (hg : g.timestamps = some (timeRange (rows.map fun r => toI64 r.timestampUnixNano)))
    (ht : ∀ r ∈ rows, r.timestampUnixNano < 2 ^ 63) {r : LogRecord} (hmem : r ∈ rows)
    (hr : matchesRow q r = true) : rowGroupMatches q g = true := by
  obtain ⟨hfrom, huntil, -⟩ := (matchesRow_iff r).mp hr
  have hmap : toI64 r.timestampUnixNano ∈ rows.map fun r => toI64 r.timestampUnixNano :=
    List.mem_map_of_mem hmem
  obtain ⟨hleast, hgreatest, hmin, hmax⟩ := timeRange_spec hmap
  obtain ⟨least, hl, hleq⟩ := List.mem_map.mp hmin
  obtain ⟨greatest, hgr, hgeq⟩ := List.mem_map.mp hmax
  have hti : ∀ x ∈ rows, toI64 x.timestampUnixNano = x.timestampUnixNano := by
    intro x hx
    have := ht x hx
    rw [toI64, if_pos (by omega)]
    omega
  rw [← hleq, hti least hl, hti r hmem] at hleast
  rw [← hgeq, hti greatest hgr, hti r hmem] at hgreatest
  unfold rowGroupMatches
  rw [hg]
  simp only [← hleq, ← hgeq, asU64_toI64 (ht least hl), asU64_toI64 (ht greatest hgr),
    Bool.and_eq_true, decide_eq_true_eq]
  have htr := ht r hmem
  constructor
  · cases hq : q.fromUnixNano with
    | none => simp
    | some t =>
      have := hfrom t hq
      simp only [Option.getD_some]
      omega
  · cases hq : q.untilUnixNano with
    | none =>
      simp only [Option.getD_none]
      omega
    | some t =>
      have := huntil t hq
      simp only [Option.getD_some]
      omega

/-- A row decodes to one that matches if and only if it does. -/
theorem matchesRow_readBack (attributes : LogRecord → List Attr) {r : LogRecord}
    (h : r.timestampUnixNano < 2 ^ 63) :
    matchesRow q (readBack attributes r) = matchesRow q r := by
  have htime : (toI64 r.timestampUnixNano).toNat = r.timestampUnixNano := by
    rw [toI64, if_pos (by omega)]
    omega
  unfold matchesRow readBack
  rw [htime]

/-- No matching row of such a store is in a file or a row group that a scan skips. -/
theorem hiddenIn_eq_nil {tenancy : Tenancy} (hnamed : BucketsNamed tenancy)
    {attributes : LogRecord → List Attr} {files : List ParquetFile}
    (h : ∀ f ∈ files, Written tenancy attributes f) : hiddenIn q files = [] := by
  unfold hiddenIn
  rw [List.flatMap_eq_nil_iff]
  intro f hf
  obtain ⟨key, name, records, hvalid, rfl, hrecords⟩ := h f hf
  have hmem : ∀ chunk ∈ Lists.chunks rowGroupRows records.length records, ∀ r ∈ chunk,
      r ∈ records := by
    intro chunk hchunk r hr
    rw [← Lists.flatten_chunks (show 0 < rowGroupRows by decide) (le_refl records.length)]
    exact List.mem_flatten_of_mem hchunk hr
  split
  · rw [List.filter_eq_nil_iff]
    intro x hx hmatch
    obtain ⟨g, hg, hxg⟩ := List.mem_flatMap.mp hx
    obtain ⟨hg, hskip⟩ := List.mem_filter.mp hg
    obtain ⟨chunk, hchunk, rfl⟩ := List.mem_map.mp hg
    obtain ⟨r, hr, rfl⟩ := List.mem_map.mp hxg
    have htime : ∀ r ∈ chunk, r.timestampUnixNano < 2 ^ 63 :=
      fun r hr => (hrecords r (hmem chunk hchunk r hr)).2
    rw [matchesRow_readBack attributes (htime r hr)] at hmatch
    rw [rowGroupMatches_of_mem rfl htime hr hmatch] at hskip
    cases hskip
  · next hskip =>
    rw [List.filter_eq_nil_iff]
    intro x hx hmatch
    obtain ⟨g, hg, hxg⟩ := List.mem_flatMap.mp hx
    obtain ⟨chunk, hchunk, rfl⟩ := List.mem_map.mp hg
    obtain ⟨r, hr, rfl⟩ := List.mem_map.mp hxg
    obtain ⟨hfiled, ht⟩ := hrecords r (hmem chunk hchunk r hr)
    rw [matchesRow_readBack attributes ht] at hmatch
    exact hskip (partitionMatches_of_filed hnamed hvalid name hfiled ht hmatch)

/-- In a store whose buckets have the names of their classes a scan with a limit goes wrong in one
case only: when as many rows match as it may return. -/
theorem exact_iff_of_written {tenancy : Tenancy} (hnamed : BucketsNamed tenancy)
    {attributes : LogRecord → List Attr} {files : List ParquetFile}
    (h : ∀ f ∈ files, Written tenancy attributes f) (hlimit : 0 < q.limit) :
    Exact q files ↔ (matching q files).length ≠ q.limit := by
  have hnil : hiddenIn q files = [] := hiddenIn_eq_nil hnamed h
  have hlen : (matching q files).length = (visibleIn q files).length := by
    rw [(perm_matching files).length_eq, hnil, List.append_nil]
  rw [exact_iff_of_pos hlimit, hnil, hlen]
  simp

end

/-- The files of a store. -/
def Disk.files (d : Disk) (attributes : LogRecord → List Attr) : List ParquetFile :=
  d.store.map fun x => .ofRows attributes x.1 x.2

end LogLess.Store
