import Mathlib.Data.List.TakeWhile
import LogLess.Lib.Runs
import LogLess.Lib.Lists
import LogLess.Wal.Split

/-!
# Reading a log back

`replay_segment` and `recover`, and what they return for a log a writer left behind.

A writer accepts any payload whose length fits in 32 bits, a reader takes any length
above `MAX_FRAME_BYTES` for damage and stops. So recovery returns every batch a sync
covered exactly when all of these are within the reader's limit.
-/

namespace LogLess.Wal

open Frames

/-! ## One segment -/

/-- A file of the log's directory; its name is its id. -/
structure WalFile where
  id : ℕ
  bytes : Bytes
deriving DecidableEq

theorem length_uuidField {bytes : Bytes} (h : headerBytes ≤ bytes.length ∧ bytes.take 8 = magic) :
    ((bytes.drop 8).take 16).length = 16 := by
  have hlen : 24 ≤ bytes.length := h.1
  simp only [List.length_take, List.length_drop]
  omega

/-- The uuid of a segment with a whole header, and what follows the header. -/
def readHeader (bytes : Bytes) : Option (Uuid × Bytes) :=
  if h : headerBytes ≤ bytes.length ∧ bytes.take 8 = magic then
    some (⟨(bytes.drop 8).take 16, length_uuidField h⟩, bytes.drop headerBytes)
  else none

/-- `segment_uuid`. -/
def segmentUuid (bytes : Bytes) : Except WalError Uuid :=
  match readHeader bytes with
  | some (uuid, _) => .ok uuid
  | none => .error .badMagic

/-- `is_incomplete_header`: a file cut inside the header its creation writes. -/
def isIncompleteHeader (bytes : Bytes) : Bool :=
  let read := min bytes.length headerBytes
  let magicSeen := min read magic.length
  read < headerBytes && bytes.take magicSeen == magic.take magicSeen

/-- The frame lengths a reader takes for whole. -/
def okLen (len : ℕ) : Bool := !(len == 0 || maxFrameBytes < len)

structure SegmentOutcome where
  batches : ℕ
  records : ℕ
  truncatedTo : Option ℕ
  uuid : Uuid

/-- What `replay_segment` reports, the batches it visits and the file it leaves. -/
structure Replay where
  outcome : SegmentOutcome
  visited : List Batch
  bytes : Bytes

def replaySegment (c : Codec) (truncateDamaged : Bool) (bytes : Bytes) :
    Except WalError Replay :=
  match readHeader bytes with
  | none => .error .badMagic
  | some (uuid, body) =>
    let read := scan c.hash okLen c.fromBytes body
    let goodLen := headerBytes + (read.map fun x => frameHeaderBytes + x.1.length).sum
    let damaged := decide (goodLen < bytes.length)
    .ok
      { outcome :=
          { batches := read.length
            records := (read.map fun x => x.2.length).sum
            truncatedTo := if damaged then some goodLen else none
            uuid := uuid }
        visited := read.map Prod.snd
        bytes := if damaged && truncateDamaged then bytes.take goodLen else bytes }

/-! ## The whole directory -/

/-- `list_segments`: a directory is listed in no particular order. -/
def listSegments (dir : List WalFile) : List WalFile := Lists.sortByKey WalFile.id dir

structure RecoveryReport where
  segmentsRead : ℕ
  batches : ℕ
  records : ℕ
  /-- The segments whose tail was damaged, with the surviving length. -/
  truncated : List (ℕ × ℕ)

/-- A recovery under way: its report, the batches visited and the files as it left them. -/
structure Recovery where
  report : RecoveryReport
  visited : List Batch
  files : List WalFile

def recoverFile (c : Codec) (truncateDamaged : Bool) (r : Recovery) (f : WalFile) :
    Except WalError Recovery := do
  let replay ← replaySegment c truncateDamaged f.bytes
  let outcome := replay.outcome
  return {
    report :=
      { segmentsRead := r.report.segmentsRead + 1
        batches := r.report.batches + outcome.batches
        records := r.report.records + outcome.records
        truncated := r.report.truncated ++ (outcome.truncatedTo.map fun len => (f.id, len)).toList }
    visited := r.visited ++ replay.visited
    files := r.files ++ [⟨f.id, replay.bytes⟩] }

def recover (c : Codec) (truncateDamaged : Bool) (dir : List WalFile) :
    Except WalError Recovery :=
  (listSegments dir).foldlM (recoverFile c truncateDamaged) ⟨⟨0, 0, 0, []⟩, [], []⟩

/-! ## Histories of one writer, and crashes -/

inductive WalOp where
  | append (batch : Batch) (instant : ℕ)
  | appendAt (batch : Batch) (now instant : ℕ)
  | rollIfDue (now instant : ℕ)
  | maybeSync (instant : ℕ)
  | sync (instant : ℕ)
  | roll (instant : ℕ)

/-- A writer and the batches successfully appended through it. An empty batch is not
written. -/
structure WalHistory where
  writer : WalWriter
  appended : List Batch

def WalHistory.step (c : Codec) (h : WalHistory) : WalOp → WalHistory
  | .append batch instant =>
    let (w, r) := h.writer.append c batch instant
    ⟨w, h.appended ++ written batch r⟩
  | .appendAt batch now instant =>
    let (w, r) := h.writer.appendAt c batch now instant
    ⟨w, h.appended ++ written batch r⟩
  | .rollIfDue now instant => { h with writer := (h.writer.rollIfDue now instant).1 }
  | .maybeSync instant => { h with writer := (h.writer.maybeSync instant).1 }
  | .sync instant => { h with writer := h.writer.sync instant }
  | .roll instant => { h with writer := h.writer.roll instant }

/-- The directory after a crash that leaves the first `k` bytes of the last segment. -/
def WalWriter.crash (w : WalWriter) (k : ℕ) : List WalFile :=
  (w.closed.map fun f => ⟨f.id, f.bytes⟩) ++ [⟨w.current.id, w.current.bytes.take k⟩]

/-- How many of the batches `bs` have their whole frame in the first `n` bytes of a log. -/
def Codec.within (c : Codec) : List Batch → ℕ → ℕ
  | [], _ => 0
  | b :: bs, n =>
    let len := frameHeaderBytes + (c.toStdvec b).length
    if len ≤ n then c.within bs (n - len) + 1 else 0

/-- The batches the last sync covered: those wholly in synced bytes. -/
def WalHistory.covered (c : Codec) (h : WalHistory) : List Batch :=
  h.appended.take (c.within h.appended h.writer.syncedFrames.length)

/-- A batch a reader takes back. -/
def Codec.fits (c : Codec) (b : Batch) : Bool := (c.toStdvec b).length ≤ maxFrameBytes

/-! ## What a replay returns -/

section Replay

variable {c : Codec} {bs : List Batch}

theorem okLen_iff {n : ℕ} : okLen n = true ↔ n ≠ 0 ∧ n ≤ maxFrameBytes := by
  simp [okLen]

/-- The reader's view of whole frames: the batches before the first that does not fit. -/
theorem scan_frames (hinv : c.Inverts bs) (hlen : ∀ b ∈ bs, (c.toStdvec b).length < 2 ^ 32)
    {tail : Bytes} (htail : readFrame c.hash okLen c.fromBytes tail = none) :
    scan c.hash okLen c.fromBytes (c.frames bs ++ tail)
      = (bs.takeWhile c.fits).map fun b => (c.toStdvec b, b) := by
  induction bs with
  | nil => exact scan_of_none htail
  | cons b bs ih =>
    have hb := hlen b List.mem_cons_self
    have hframe : c.frames (b :: bs) ++ tail
        = frame c.hash (c.toStdvec b) ++ (c.frames bs ++ tail) := by
      rw [← List.append_assoc]
      rfl
    rw [hframe, List.takeWhile_cons]
    by_cases hfit : c.fits b = true
    · have hok : okLen (c.toStdvec b).length = true := by
        rw [okLen_iff]
        exact ⟨fun h0 => hinv.toStdvec_ne_nil b List.mem_cons_self (List.length_eq_zero_iff.mp h0),
          by simpa [Codec.fits] using hfit⟩
      have hrest := ih
        ⟨fun x hx => hinv.fromBytes_toStdvec x (List.mem_cons_of_mem _ hx),
          fun x hx => hinv.toStdvec_ne_nil x (List.mem_cons_of_mem _ hx)⟩
        fun x hx => hlen x (List.mem_cons_of_mem _ hx)
      rw [if_pos hfit, List.map_cons, ← hrest]
      exact scan_of_some
        (readFrame_frame hb hok (hinv.fromBytes_toStdvec b List.mem_cons_self) _)
    · -- the frame is whole and refused, and everything after it with it
      have hok : okLen (c.toStdvec b).length = false := by
        rw [Bool.eq_false_iff]
        intro h
        exact hfit (by simpa [Codec.fits] using (okLen_iff.mp h).2)
      rw [if_neg hfit, scan_of_none (readFrame_refused hb hok _)]
      rfl

theorem readHeader_append (u : Uuid) (body : Bytes) :
    readHeader (magic ++ u.bytes ++ body) = some (u, body) := by
  have hlen := length_header u
  have hmagic : (magic ++ u.bytes ++ body).take 8 = magic := by
    rw [List.append_assoc]
    exact List.take_left' rfl
  have huuid : ((magic ++ u.bytes ++ body).drop 8).take 16 = u.bytes := by
    rw [List.append_assoc, List.drop_left' (show magic.length = 8 from rfl),
      List.take_left' u.length_bytes]
  have hbody : (magic ++ u.bytes ++ body).drop headerBytes = body := List.drop_left' hlen
  have hle : headerBytes ≤ (magic ++ u.bytes ++ body).length := by
    rw [List.length_append, hlen]
    omega
  rw [readHeader, dif_pos ⟨hle, hmagic⟩]
  congr 3

/-- A segment with a whole header, whole frames and something unreadable after them. -/
theorem replaySegment_frames (u : Uuid) (hinv : c.Inverts bs)
    (hlen : ∀ b ∈ bs, (c.toStdvec b).length < 2 ^ 32) {tail : Bytes}
    (htail : readFrame c.hash okLen c.fromBytes tail = none) (truncateDamaged : Bool) :
    ∃ r, replaySegment c truncateDamaged (magic ++ u.bytes ++ (c.frames bs ++ tail)) = .ok r ∧
      r.visited = bs.takeWhile c.fits ∧ r.outcome.uuid = u := by
  rw [replaySegment, readHeader_append]
  refine ⟨_, rfl, ?_, rfl⟩
  simp [scan_frames hinv hlen htail, Function.comp_def]

/-- `recover` visits the files in the order of their ids. -/
theorem foldlM_recoverFile (truncateDamaged : Bool) {fs : List WalFile} {vs : List (List Batch)}
    (h : List.Forall₂ (fun f v => ∃ r, replaySegment c truncateDamaged f.bytes = .ok r ∧
      r.visited = v) fs vs) (acc : Recovery) :
    ∃ r, fs.foldlM (recoverFile c truncateDamaged) acc = .ok r ∧
      r.visited = acc.visited ++ vs.flatten := by
  induction h generalizing acc with
  | nil => exact ⟨acc, rfl, by simp⟩
  | cons hf _ ih =>
    obtain ⟨r, hr, rfl⟩ := hf
    rw [List.foldlM_cons, recoverFile, hr]
    obtain ⟨r', hr', hv⟩ := ih _
    refine ⟨r', hr', ?_⟩
    rw [hv, List.flatten_cons, List.append_assoc]

end Replay

/-! ## Recovery after a crash -/

section Crash

variable {c : Codec} {w : WalWriter} {bs : List Batch} {n : ℕ}

theorem Codec.Inverts.mono (h : c.Inverts bs) {cs : List Batch} (hsub : ∀ b ∈ cs, b ∈ bs) :
    c.Inverts cs :=
  ⟨fun b hb => h.fromBytes_toStdvec b (hsub b hb), fun b hb => h.toStdvec_ne_nil b (hsub b hb)⟩

theorem Codec.within_take (c : Codec) {k : ℕ} (hk : k ≤ bs.length) :
    c.within bs (c.frames (bs.take k)).length = k := by
  induction bs generalizing k with
  | nil => exact (Nat.le_zero.mp hk).symm
  | cons b bs ih =>
    cases k with
    | zero => simp [Codec.within, frameHeaderBytes]
    | succ k =>
      have hlen : (c.frames ((b :: bs).take (k + 1))).length
          = frameHeaderBytes + (c.toStdvec b).length + (c.frames (bs.take k)).length := by
        simp [Codec.frames, frameHeaderBytes]
      simp only [Codec.within, hlen, Nat.le_add_right, if_true, Nat.add_sub_cancel_left,
        ih (Nat.le_of_succ_le_succ hk)]

/-- A closed segment is whole: its replay stops only at a batch that does not fit. -/
theorem replay_closed (truncateDamaged : Bool) {fs : List SegmentFile} {segs : List (List Batch)}
    (h : List.Forall₂ (fun f bs => WalWriter.HoldsFrames c f bs ∧ f.synced = f.bytes.length) fs segs)
    (hinv : c.Inverts segs.flatten)
    (hlen : ∀ b ∈ segs.flatten, (c.toStdvec b).length < 2 ^ 32) :
    List.Forall₂ (fun (f : WalFile) v =>
      ∃ r, replaySegment c truncateDamaged f.bytes = .ok r ∧ r.visited = v)
      (fs.map fun f => ⟨f.id, f.bytes⟩) (segs.map (List.takeWhile c.fits)) := by
  induction h with
  | nil => exact List.Forall₂.nil
  | @cons f s fs segs hf _ ih =>
    have hs : ∀ b ∈ s, b ∈ (s :: segs).flatten := fun b hb => List.mem_append_left _ hb
    have hsegs : ∀ b ∈ segs.flatten, b ∈ (s :: segs).flatten :=
      fun b hb => List.mem_append_right _ hb
    refine List.Forall₂.cons ?_ (ih (hinv.mono hsegs) fun b hb => hlen b (hsegs b hb))
    obtain ⟨r, hr, hv, -⟩ := replaySegment_frames f.uuid (hinv.mono hs)
      (fun b hb => hlen b (hs b hb)) readFrame_nil truncateDamaged
    rw [List.append_nil, ← hf.1] at hr
    exact ⟨r, hr, hv⟩

/-- What recovery visits after a crash: of each closed segment the batches before the first
that does not fit, and the same of the batches left whole in the last one, which are all
the synced ones at least. -/
theorem recover_crash (h : w.Holds c bs n) (hinv : c.Inverts bs)
    (hlen : ∀ b ∈ bs, (c.toStdvec b).length < 2 ^ 32) {k : ℕ} (hk : w.current.synced ≤ k)
    (truncateDamaged : Bool) {dir : List WalFile} (hdir : dir.Perm (w.crash k)) :
    ∃ (r : Recovery) (segs : List (List Batch)) (last : List Batch), recover c truncateDamaged dir = .ok r ∧
      r.visited = (segs.map (List.takeWhile c.fits)).flatten ++ last.takeWhile c.fits ∧
      segs.flatten ++ last <+: bs ∧ bs.take n <+: segs.flatten ++ last ∧
      segs.flatten.length ≤ n := by
  obtain ⟨segs, cur, m, L, rfl, rfl⟩ := h
  have hids : ((w.crash k).map WalFile.id).Pairwise (· < ·) := by
    have := L.ids
    simpa [WalWriter.crash, WalWriter.files, Function.comp_def] using this
  rw [recover, listSegments, Lists.sortByKey_eq hdir hids, WalWriter.crash]
  -- the last file is cut at or after the sync mark
  obtain ⟨j, tail, htake, hj, htail⟩ :=
    take_frames c.hash (cur.map c.toStdvec) (k - headerBytes)
  have hm : m ≤ j := by
    refine le_of_take_frames htake htail (by simpa using L.le) ?_
    have hsynced := L.synced
    rw [← List.map_take]
    change (c.frames (cur.take m)).length ≤ _
    omega
  have hmem : ∀ b ∈ cur, b ∈ segs.flatten ++ cur := fun b hb => List.mem_append_right _ hb
  have hcut : w.current.bytes.take k
      = magic ++ w.current.uuid.bytes ++ (c.frames (cur.take j) ++ tail) := by
    have hge : headerBytes ≤ k := by
      have := L.synced
      omega
    rw [L.current, List.take_append, length_header,
      List.take_of_length_le (by rw [length_header]; exact hge), Codec.frames, htake,
      ← List.map_take]
    rfl
  have htailNone : readFrame c.hash okLen c.fromBytes tail = none := by
    rcases htail with rfl | ⟨p, hp, hpre, hne⟩
    · exact readFrame_nil
    · obtain ⟨b, hb, rfl⟩ := List.mem_map.mp (List.mem_of_getElem? hp)
      exact readFrame_torn (hlen b (hmem b hb)) hpre hne
  have hlast : ∃ r, replaySegment c truncateDamaged (w.current.bytes.take k) = .ok r ∧
      r.visited = (cur.take j).takeWhile c.fits := by
    rw [hcut]
    obtain ⟨r, hr, hv, -⟩ := replaySegment_frames w.current.uuid
      (hinv.mono fun b hb => hmem b (List.mem_of_mem_take hb))
      (fun b hb => hlen b (hmem b (List.mem_of_mem_take hb))) htailNone truncateDamaged
    exact ⟨r, hr, hv⟩
  have hclosed := replay_closed (c := c) truncateDamaged L.closed
    (hinv.mono fun b hb => List.mem_append_left _ hb)
    fun b hb => hlen b (List.mem_append_left _ hb)
  obtain ⟨r, hr, hv⟩ := foldlM_recoverFile truncateDamaged
    (List.rel_append hclosed (List.Forall₂.cons (a := ⟨w.current.id, w.current.bytes.take k⟩)
      hlast List.Forall₂.nil)) ⟨⟨0, 0, 0, []⟩, [], []⟩
  refine ⟨r, segs, cur.take j, hr, by simpa using hv, ?_, ?_, by omega⟩
  · exact (List.prefix_append_right_inj _).mpr (List.take_prefix j cur)
  · rw [List.take_length_add_append]
    exact (List.prefix_append_right_inj _).mpr (List.take_prefix_take_left hm)

/-- The batches a sync covered come back exactly when all of them fit. -/
theorem covered_prefix_iff {segs : List (List Batch)} {last : List Batch}
    (hpre : segs.flatten ++ last <+: bs) (hcov : bs.take n <+: segs.flatten ++ last)
    (hn : segs.flatten.length ≤ n) (hle : n ≤ bs.length) :
    ((segs.map (List.takeWhile c.fits)).flatten ++ last.takeWhile c.fits <+: bs ∧
      bs.take n <+: (segs.map (List.takeWhile c.fits)).flatten ++ last.takeWhile c.fits) ↔
      ∀ b ∈ bs.take n, c.fits b = true := by
  constructor
  · rintro ⟨-, hsub⟩ b hb
    rcases List.mem_append.mp (hsub.subset hb) with h | h
    · obtain ⟨s, hs, hbs⟩ := List.mem_flatten.mp h
      obtain ⟨s, -, rfl⟩ := List.mem_map.mp hs
      exact List.mem_takeWhile_imp hbs
    · exact List.mem_takeWhile_imp h
  · intro hfit
    -- the closed segments are all covered, so nothing of them is dropped
    have hsegs : ∀ b ∈ segs.flatten, c.fits b = true := by
      intro b hb
      refine hfit b (List.IsPrefix.subset ?_ hb)
      exact List.prefix_of_prefix_length_le ((List.prefix_append _ _).trans hpre)
        (List.take_prefix n bs) (by rw [List.length_take]; omega)
    have hall : segs.map (List.takeWhile c.fits) = segs := by
      refine (List.map_congr_left fun s hs => ?_).trans (List.map_id segs)
      exact List.takeWhile_eq_self_iff.mpr fun b hb => hsegs b (List.mem_flatten.mpr ⟨s, hs, hb⟩)
    rw [hall, ← List.takeWhile_append_of_pos hsegs]
    refine ⟨(List.takeWhile_prefix _).trans hpre, ?_⟩
    obtain ⟨rest, hrest⟩ := hcov
    rw [← hrest, List.takeWhile_append_of_pos hfit]
    exact List.prefix_append _ _

end Crash

/-! ## The claim over every history -/

namespace WalHistory

variable {c : Codec} {h : WalHistory}

/-- What a history says of its writer: the log holds what was appended, and every payload
went through the length check of `append`. -/
structure Ok (c : Codec) (h : WalHistory) : Prop where
  logs : h.writer.Logs c h.appended 0
  lengths : ∀ b ∈ h.appended, (c.toStdvec b).length < 2 ^ 32

/-- A batch is only written after its length was found to fit the frame's length field. -/
theorem length_of_written {w : WalWriter} {batch b : Batch} {instant : ℕ}
    (hb : b ∈ written batch (w.append c batch instant).2) : (c.toStdvec b).length < 2 ^ 32 := by
  unfold WalWriter.append at hb
  split at hb
  · next hnil => simp [hnil] at hb
  · next hne =>
    split at hb
    · simp [written] at hb
    · next hlt =>
      have hmem : b ∈ written batch (.ok ()) := by
        simp only at hb
        split at hb <;> exact hb
      rw [written_ok, if_neg hne, List.mem_singleton] at hmem
      rw [hmem]
      omega

theorem Ok.append (hok : Ok c h) {w : WalWriter} {batch : Batch} {instant : ℕ}
    (hw : w.Logs c h.appended 0) :
    Ok c ⟨(w.append c batch instant).1, h.appended ++ written batch (w.append c batch instant).2⟩ := by
  refine ⟨hw.append batch instant, ?_⟩
  intro b hb
  rcases List.mem_append.mp hb with hb | hb
  · exact hok.lengths b hb
  · exact length_of_written hb

theorem Ok.step (hok : Ok c h) (op : WalOp) : Ok c (h.step c op) := by
  cases op with
  | append batch instant => exact hok.append hok.logs
  | appendAt batch now instant =>
    simp only [WalHistory.step, WalWriter.appendAt]
    split
    · next hnil => simpa [hnil] using hok
    · exact hok.append ((hok.logs.rollIfDue now instant).start now)
  | rollIfDue now instant => exact ⟨hok.logs.rollIfDue now instant, hok.lengths⟩
  | maybeSync instant => exact ⟨hok.logs.maybeSync instant, hok.lengths⟩
  | sync instant => exact ⟨(hok.logs.sync instant).mono (Nat.zero_le _), hok.lengths⟩
  | roll instant => exact ⟨(hok.logs.roll instant).mono (Nat.zero_le _), hok.lengths⟩

theorem ok_run (last : Option ℕ) (segmentBytes fsyncInterval fsyncBytes instant : ℕ)
    (uuids : ℕ → Uuid) (ops : List WalOp) :
    Ok c (Runs.run (WalHistory.step c)
      ⟨WalWriter.open last segmentBytes fsyncInterval fsyncBytes instant uuids, []⟩ ops) :=
  Runs.run_invariant (fun _ op hs => hs.step op) ⟨WalWriter.logs_open .., by simp⟩ ops

theorem covered_of_holds {n : ℕ} (hh : h.writer.Holds c h.appended n) :
    h.covered c = h.appended.take n := by
  rw [covered, hh.syncedFrames_eq, c.within_take hh.le]

/-- After a sync everything appended is covered. -/
theorem Ok.covered_sync (hok : Ok c h) (instant : ℕ) :
    (h.step c (.sync instant)).covered c = h.appended := by
  obtain ⟨n, -, hh⟩ := hok.logs.holds
  have hs : (h.step c (.sync instant)).writer.Holds c h.appended h.appended.length :=
    hh.sync instant
  exact (covered_of_holds hs).trans (List.take_length)

/-- Recovery of any directory a crash leaves, for a history of any length. -/
theorem Ok.recover_iff (hok : Ok c h) (hinv : c.Inverts h.appended) {k : ℕ}
    (hk : h.writer.current.synced ≤ k) (truncateDamaged : Bool) {dir : List WalFile}
    (hdir : dir.Perm (h.writer.crash k)) :
    ∃ r, recover c truncateDamaged dir = .ok r ∧
      ((r.visited <+: h.appended ∧ h.covered c <+: r.visited) ↔
        ∀ b ∈ h.covered c, (c.toStdvec b).length ≤ maxFrameBytes) := by
  obtain ⟨n, -, hh⟩ := hok.logs.holds
  obtain ⟨r, segs, cur, hr, hv, hpre, hcov, hn⟩ :=
    recover_crash hh hinv hok.lengths hk truncateDamaged hdir
  refine ⟨r, hr, ?_⟩
  rw [hv, covered_of_holds hh, covered_prefix_iff hpre hcov hn hh.le]
  simp [Codec.fits]

end WalHistory

/-- **Recovery after a crash.** Take any history of appends, rolls and syncs of one writer
and a crash that leaves any prefix of the last segment with at least its synced bytes. The
directory, listed in any order, is recovered without error; and what recovery visits is a
prefix of the appended batches that has every batch the last sync covered if and only if
each covered batch encodes to at most `MAX_FRAME_BYTES` bytes. -/
theorem recover_covered_iff_fits (c : Codec) (last : Option ℕ)
    (segmentBytes fsyncInterval fsyncBytes instant : ℕ) (uuids : ℕ → Uuid) (ops : List WalOp)
    (h : WalHistory) (k : ℕ) (truncateDamaged : Bool) (dir : List WalFile)
    (hrun : h = Runs.run (WalHistory.step c)
      ⟨WalWriter.open last segmentBytes fsyncInterval fsyncBytes instant uuids, []⟩ ops)
    (hinv : c.Inverts h.appended) (hk : h.writer.current.synced ≤ k)
    (hdir : dir.Perm (h.writer.crash k)) :
    ∃ r, recover c truncateDamaged dir = .ok r ∧
      ((r.visited <+: h.appended ∧ h.covered c <+: r.visited) ↔
        ∀ b ∈ h.covered c, (c.toStdvec b).length ≤ maxFrameBytes) := by
  have hok : WalHistory.Ok c h := hrun ▸ WalHistory.ok_run ..
  exact hok.recover_iff hinv hk truncateDamaged hdir

/-- A batch of one record whose body is `n` letters. -/
def lettersBatch (n : ℕ) : Batch :=
  [.new (.nowV7 1 (List.replicate 10 0) length_zeros) 1 .INFO (List.replicate n 'a')]

/-- One append, one sync and another append; the crash leaves a part of the last frame. -/
theorem recover_covered_iff_fits_torn_tail :
    let h := Runs.run (WalHistory.step Postcard.codec)
      ⟨WalWriter.open none 1048576 1000 1048576 0 fun _ => .nowV7 1 (List.replicate 10 0) length_zeros, []⟩
      [.append (lettersBatch 1) 0, .sync 1, .append (lettersBatch 2) 2]
    ∃ r, recover Postcard.codec true (h.writer.crash (h.writer.current.synced + 5)) = .ok r ∧
      r.visited <+: h.appended ∧ h.covered Postcard.codec <+: r.visited := by
  intro h
  have happ : h.appended = [lettersBatch 1, lettersBatch 2] := by decide +kernel
  have hinv : Postcard.codec.Inverts h.appended := by
    rw [happ]
    refine Postcard.codec_inverts fun b hb => ?_
    simp only [List.mem_cons, List.not_mem_nil, or_false] at hb
    rcases hb with rfl | rfl <;> refine ⟨by decide, fun r hr => ?_⟩ <;>
      obtain rfl := List.mem_singleton.mp hr <;>
      exact Postcard.inRange_new _ _ (by decide) (by decide)
  obtain ⟨r, hr, hiff⟩ := recover_covered_iff_fits Postcard.codec none 1048576 1000 1048576 0 _ _ h
    (h.writer.current.synced + 5) true _ rfl hinv (by omega) (List.Perm.refl _)
  exact ⟨r, hr, hiff.mpr (by decide +kernel)⟩

theorem WalWriter.append_ok {c : Codec} {w : WalWriter} {b : Batch}
    (hb : (c.toStdvec b).length < 2 ^ 32) (instant : ℕ) : (w.append c b instant).2 = .ok () := by
  unfold WalWriter.append
  split
  · rfl
  · rw [if_neg (by omega)]
    simp only
    split <;> rfl

/-- The encoding of `lettersBatch n` is its letters and little more. -/
theorem length_lettersBatch (n : ℕ) :
    n ≤ (Postcard.codec.toStdvec (lettersBatch n)).length ∧
      (Postcard.codec.toStdvec (lettersBatch n)).length ≤ n + 100 := by
  have hlen : (Utf8.encode (List.replicate n 'a')).length = n := by
    rw [Utf8.length_encode, List.map_replicate, List.sum_replicate]
    simp [show Char.utf8Size 'a' = 1 from by decide]
  have h := Postcard.length_toStdvec_new (.nowV7 1 (List.replicate 10 0) length_zeros) 1 .INFO
    (List.replicate n 'a')
  rw [hlen] at h
  exact h

theorem inverts_lettersBatch {n : ℕ} (hn : n < 2 ^ 64) :
    Postcard.codec.Inverts [lettersBatch n] := by
  refine Postcard.codec_inverts fun b hb => ?_
  obtain rfl := List.mem_singleton.mp hb
  refine ⟨by simp [lettersBatch], fun r hr => ?_⟩
  obtain rfl := List.mem_singleton.mp hr
  refine Postcard.inRange_new _ _ (by omega) ?_
  rw [Text.len, List.map_replicate, List.sum_replicate]
  simpa [show Char.utf8Size 'a' = 1 from by decide] using hn

/-- One batch appended and synced by a new writer. -/
def appendSync (b : Batch) : WalHistory :=
  Runs.run (WalHistory.step Postcard.codec)
    ⟨WalWriter.open none 1048576 1000 1048576 0 fun _ => .nowV7 1 (List.replicate 10 0) length_zeros, []⟩
    [.append b 0, .sync 1]

theorem appendSync_covered {b : Batch} (hb : b ≠ [])
    (hlen : (Postcard.codec.toStdvec b).length < 2 ^ 32) :
    (appendSync b).appended = [b] ∧ (appendSync b).covered Postcard.codec = [b] := by
  have happ : (appendSync b).appended = [b] := by
    change [] ++ written _ (WalWriter.append ..).2 = _
    rw [WalWriter.append_ok hlen, written_ok, if_neg hb, List.nil_append]
  have hok := WalHistory.ok_run (c := Postcard.codec) none 1048576 1000 1048576 0
    (fun _ => .nowV7 1 (List.replicate 10 0) length_zeros) [.append b 0]
  exact ⟨happ, (hok.covered_sync 1).trans happ⟩

/-- A record with a body just over the limit is appended and synced, both without an
error, and recovery does not return it. -/
theorem recover_drops_synced_batch :
    let h := appendSync (lettersBatch (maxFrameBytes + 1))
    h.appended = [lettersBatch (maxFrameBytes + 1)] ∧ Postcard.codec.Inverts h.appended ∧
      ∃ r, recover Postcard.codec true (h.writer.crash h.writer.current.synced) = .ok r ∧
        ¬ (r.visited <+: h.appended ∧ h.covered Postcard.codec <+: r.visited) := by
  have hlen := length_lettersBatch (maxFrameBytes + 1)
  have hmax : maxFrameBytes = 268435456 := rfl
  obtain ⟨happ, hcov⟩ := appendSync_covered (b := lettersBatch (maxFrameBytes + 1))
    (List.cons_ne_nil _ _) (by omega)
  have hinv : Postcard.codec.Inverts (appendSync (lettersBatch (maxFrameBytes + 1))).appended :=
    happ.symm ▸ inverts_lettersBatch (by omega)
  have hok : WalHistory.Ok Postcard.codec (appendSync (lettersBatch (maxFrameBytes + 1))) :=
    WalHistory.ok_run ..
  obtain ⟨r, hr, hiff⟩ := hok.recover_iff hinv le_rfl true (List.Perm.refl _)
  refine ⟨happ, hinv, r, hr, ?_⟩
  rw [hiff, hcov]
  intro hfits
  have := hfits _ (List.mem_singleton.mpr rfl)
  omega

end LogLess.Wal
