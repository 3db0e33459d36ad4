import LogLess.Lib.Runs
import LogLess.Outbound.Spool
import LogLess.Wal.Postcard

/-!
# Delivery from the spool

Histories of pushes, syncs, commits and crashes followed by a restart, with the list of
the records that were accepted and that no crash has cut.

A crash may leave a piece of a frame at the end of the last segment. `open` appends after
it, while `peek` reads no further in that segment, so a record pushed there is never
delivered. `peek` returns exactly the records after the cursor as long as no push lands
behind such a piece, or before a cursor that a crash left past the end of its segment.
-/

namespace LogLess.Outbound

open Frames

/-! ## Histories -/

/-- A spool and the records pushed with success whose frame is on disk, each with the cursor
at which it ends. -/
structure History where
  spool : Spool
  log : List (Cursor × Bytes)

inductive Event where
  | push (payload : Bytes)
  | sync
  | commit (cursor : Cursor)
  /-- A restart, after a crash that leaves `cut` bytes of the last segment or all that was
  synced. -/
  | reopen (cut : ℕ)

def Spool.crash (s : Spool) (cut : ℕ) : Dir :=
  s.dir.update s.writer fun f => { f with bytes := f.bytes.take (max cut f.synced) }

/-- The frame that ends at `e` is completely on disk. -/
def Dir.holds (dir : Dir) (e : Cursor × Bytes) : Bool :=
  match dir.file e.1.segment with
  | some f => e.1.offset ≤ f.bytes.length
  | none => false

variable (hash : Bytes → UInt32)

def History.step (h : History) : Event → History
  | .push payload =>
    match h.spool.push hash payload with
    | (s, .ok true) => ⟨s, h.log ++ [(⟨s.writeSegment, s.writeOffset⟩, payload)]⟩
    | (s, _) => ⟨s, h.log⟩
  | .sync => { h with spool := h.spool.sync }
  | .commit cursor => { h with spool := h.spool.commit cursor }
  | .reopen cut =>
    let dir := h.spool.crash cut
    match Spool.open dir h.spool.config with
    | .ok s => ⟨s, h.log.filter dir.holds⟩
    | .error _ => h

/-- A spool opened for the first time. -/
def History.init (config : SpoolConfig) : History where
  spool :=
    { dir := ⟨[⟨1, magic, headerBytes⟩], none⟩
      config := config
      writeSegment := 1
      writer := 1
      writeOffset := headerBytes
      cursor := ⟨1, headerBytes⟩
      droppedFull := 0 }
  log := []

theorem History.open_init (config : SpoolConfig) :
    Spool.open ⟨[], none⟩ config = .ok (History.init config).spool := rfl

/-- `e` ends after the cursor. -/
def Cursor.before (c : Cursor) (e : Cursor × Bytes) : Bool :=
  c.segment < e.1.segment || (c.segment == e.1.segment && c.offset < e.1.offset)

/-- The last segment is a header and whole frames. -/
def Spool.wholeTail (s : Spool) : Bool :=
  match s.dir.file s.writer with
  | some f =>
    let read := scan hash (fun _ => true) some (f.bytes.drop headerBytes)
    headerBytes + (read.map fun x => frameOverhead + x.1.length).sum == f.bytes.length
  | none => false

/-- The cursor lies past the end of the last segment. -/
def Spool.cursorPast (s : Spool) : Bool :=
  s.cursor.segment == s.writer && s.writeOffset < s.cursor.offset

/-- A push lands behind whole frames and not before the cursor, unless it is refused or goes
to a new segment; a commit is of a cursor that `peek` returns. -/
def History.Ok (h : History) : Event → Prop
  | .push payload =>
    payload.length < 2 ^ 32 ∧
      (h.spool.config.maxRecordBytes < payload.length ∨
        h.spool.config.maxTotalBytes < h.spool.totalBytes + payload.length ∨
        h.spool.rolls payload.length = true ∨
        (h.spool.wholeTail hash = true ∧ h.spool.cursorPast = false))
  | .commit cursor =>
    cursor.segment < 2 ^ 64 ∧ cursor.offset < 2 ^ 64 ∧
      ∃ max, cursor ∈ (h.spool.peek hash max).map Prod.fst
  | .sync => True
  | .reopen _ => True

/-! ## The cursor file -/

/-- What `write_cursor` writes, `read_cursor` reads. -/
theorem readCursor_writeCursor (dir : Dir) {c : Cursor} (hs : c.segment < 2 ^ 64)
    (ho : c.offset < 2 ^ 64) : readCursor (writeCursor dir c) = c := by
  have hdigit : ∀ n, ':' ∉ Decimal.ofNat n := by
    intro n hmem
    exact absurd (Decimal.isDigit_of_mem_ofNat hmem) (by decide)
  have htrim : Text.trim (Decimal.ofNat c.segment ++ ':' :: Decimal.ofNat c.offset)
      = Decimal.ofNat c.segment ++ ':' :: Decimal.ofNat c.offset := by
    apply Text.trim_eq_self
    intro x hx
    simp only [List.mem_append, List.mem_cons] at hx
    rcases hx with hx | rfl | hx
    · exact Text.isWhitespace_of_isDigit (Decimal.isDigit_of_mem_ofNat hx)
    · decide
    · exact Text.isWhitespace_of_isDigit (Decimal.isDigit_of_mem_ofNat hx)
  simp only [readCursor, writeCursor, htrim, Text.splitAt_append (hdigit _),
    Text.splitAt_of_notMem (hdigit _), List.getElem?_cons_zero, List.getElem?_cons_succ,
    Option.bind_some, Decimal.parse_ofNat hs, Decimal.parse_ofNat ho, Option.getD_some]

/-! ## What a segment holds -/

/-- The records of a segment that start at `offset`, each with the cursor at its end. -/
def ends (segment : ℕ) : ℕ → List Bytes → List (Cursor × Bytes)
  | _, [] => []
  | offset, p :: ps =>
    (⟨segment, offset + (frameOverhead + p.length)⟩, p)
      :: ends segment (offset + (frameOverhead + p.length)) ps

variable {hash}

@[simp] theorem length_ends (segment offset : ℕ) (ps : List Bytes) :
    (ends segment offset ps).length = ps.length := by
  induction ps generalizing offset with
  | nil => rfl
  | cons p ps ih => simp [ends, ih]

variable (hash) in
theorem ends_append (segment offset : ℕ) (ps qs : List Bytes) :
    ends segment offset (ps ++ qs)
      = ends segment offset ps ++ ends segment (offset + (frames hash ps).length) qs := by
  induction ps generalizing offset with
  | nil => rfl
  | cons p ps ih =>
    have hsum : offset + (frameOverhead + p.length) + (frames hash ps).length
        = offset + (frames hash (p :: ps)).length := by
      rw [frames_cons, List.length_append, length_frame, frameOverhead]
      omega
    rw [List.cons_append, ends, ih, hsum]
    rfl

variable (hash) in
theorem ends_bounds {segment offset : ℕ} {ps : List Bytes} {e : Cursor × Bytes}
    (h : e ∈ ends segment offset ps) :
    e.1.segment = segment ∧ offset < e.1.offset ∧
      e.1.offset ≤ offset + (frames hash ps).length := by
  induction ps generalizing offset with
  | nil => simp [ends] at h
  | cons p ps ih =>
    have hlen : (frames hash (p :: ps)).length
        = frameOverhead + p.length + (frames hash ps).length := by
      rw [frames_cons, List.length_append, length_frame, frameOverhead]
    have hpos : 0 < frameOverhead := by decide
    rw [ends, List.mem_cons] at h
    rcases h with rfl | h
    · exact ⟨rfl, by simp only; omega, by simp only; omega⟩
    · obtain ⟨hseg, hlt, hle⟩ := ih h
      exact ⟨hseg, by omega, by omega⟩

variable (hash) in
/-- A record of a segment splits its payloads at the cursor where it ends. -/
theorem split_of_mem_ends {segment offset : ℕ} {ps : List Bytes} {e : Cursor × Bytes}
    (h : e ∈ ends segment offset ps) :
    ∃ a b, ps = a ++ b ∧ e.1.offset = offset + (frames hash a).length := by
  induction ps generalizing offset with
  | nil => simp [ends] at h
  | cons p ps ih =>
    rw [ends, List.mem_cons] at h
    rcases h with rfl | h
    · exact ⟨[p], ps, rfl, by simp [frameOverhead]⟩
    · obtain ⟨a, b, rfl, hoff⟩ := ih h
      refine ⟨p :: a, b, rfl, ?_⟩
      rw [hoff, frames_cons, List.length_append, length_frame, frameOverhead]
      omega

/-- A segment with its payloads, and the piece of a frame a crash left behind them. -/
structure Seg where
  id : ℕ
  payloads : List Bytes
  torn : Bytes
  synced : ℕ

variable (hash) in
def Seg.file (g : Seg) : SegmentFile :=
  ⟨g.id, magic ++ (frames hash g.payloads ++ g.torn), g.synced⟩

def Seg.entries (g : Seg) : List (Cursor × Bytes) := ends g.id headerBytes g.payloads

variable (hash) in
/-- What a reader makes nothing of: no bytes, or a frame cut short. -/
def Torn (t : Bytes) : Prop := t = [] ∨ ∃ p : Bytes, p.length < 2 ^ 32 ∧ t <+: frame hash p ∧ t ≠ frame hash p

variable (hash) in
structure Seg.Sound (g : Seg) : Prop where
  pos : 0 < g.id
  short : ∀ p ∈ g.payloads, p.length < 2 ^ 32
  torn : Torn hash g.torn
  synced : headerBytes ≤ g.synced

theorem Torn.readFrame {t : Bytes} (h : Torn hash t) :
    readFrame hash (fun _ => true) some t = none := by
  rcases h with rfl | ⟨p, hlen, hpre, hne⟩
  · exact readFrame_nil
  · exact readFrame_torn hlen hpre hne

theorem Torn.take {t : Bytes} (h : Torn hash t) (k : ℕ) : Torn hash (t.take k) := by
  rcases h with rfl | ⟨p, hlen, hpre, hne⟩
  · exact .inl List.take_nil
  · refine .inr ⟨p, hlen, (List.take_prefix k t).trans hpre, ?_⟩
    intro heq
    have hle : (frame hash p).length ≤ t.length := by
      rw [← heq]
      exact List.length_take_le' k t
    exact hne (hpre.eq_of_length_le hle)

theorem Seg.length_file (g : Seg) :
    (g.file hash).bytes.length = headerBytes + (frames hash g.payloads).length + g.torn.length := by
  simp only [Seg.file, List.length_append]
  rw [show magic.length = headerBytes from rfl]
  omega

variable (hash) in
/-- The cursor is in this segment, between two records or past its end. -/
def Seg.At (g : Seg) (c : Cursor) : Prop :=
  c.segment = g.id ∧
    ((∃ a b, g.payloads = a ++ b ∧ c.offset = headerBytes + (frames hash a).length) ∨
      (g.file hash).bytes.length < c.offset)

/-! ## A segment cut short -/

/-- Frames and a torn piece, cut anywhere, are fewer frames and a torn piece of the next. -/
theorem take_frames_torn {ps : List Bytes} {t : Bytes} (hps : ∀ p ∈ ps, p.length < 2 ^ 32)
    (ht : Torn hash t) (m : ℕ) :
    ∃ a b u, ps = a ++ b ∧ (frames hash ps ++ t).take m = frames hash a ++ u ∧ Torn hash u ∧
      ∀ p ∈ b.head?, u.length < (frame hash p).length := by
  by_cases hm : m ≤ (frames hash ps).length
  · obtain ⟨j, u, htake, hj, hu⟩ := take_frames hash ps m
    refine ⟨ps.take j, ps.drop j, u, (List.take_append_drop j ps).symm, ?_, ?_, ?_⟩
    · rw [List.take_append_of_le_length hm, htake]
    · rcases hu with rfl | ⟨p, hp, hpre, hne⟩
      · exact .inl rfl
      · exact .inr ⟨p, hps p (List.mem_of_getElem? hp), hpre, hne⟩
    · intro p hp
      rw [List.head?_drop] at hp
      rcases hu with rfl | ⟨q, hq, hpre, hne⟩
      · rw [length_frame, List.length_nil]
        omega
      · obtain rfl : q = p := by
          rw [Option.mem_def] at hp hq
          rw [hp] at hq
          exact (Option.some.inj hq).symm
        exact lt_of_le_of_ne hpre.length_le fun heq => hne (hpre.eq_of_length heq)
  · refine ⟨ps, [], t.take (m - (frames hash ps).length), (List.append_nil ps).symm, ?_,
      ht.take _, by simp⟩
    rw [List.take_append, List.take_of_length_le (by omega)]

/-- A segment cut at or after its header: the records that are still whole. -/
theorem Seg.Sound.cut {g : Seg} (hg : g.Sound hash) {n : ℕ} (hn : headerBytes ≤ n) :
    ∃ g' : Seg, g'.id = g.id ∧ g'.Sound hash ∧
      g'.file hash = ⟨g.id, (g.file hash).bytes.take n, g.synced⟩ ∧
      g'.entries = g.entries.filter (fun e => e.1.offset ≤ (g'.file hash).bytes.length) ∧
      ∀ c, g.At hash c → g'.At hash c := by
  obtain ⟨a, b, u, hab, htake, hu, hhead⟩ := take_frames_torn hg.short hg.torn (n - headerBytes)
  let g' : Seg := ⟨g.id, a, u, g.synced⟩
  have hfile : g'.file hash = ⟨g.id, (g.file hash).bytes.take n, g.synced⟩ := by
    have hmagic : magic.length = headerBytes := rfl
    have hcut : (g.file hash).bytes.take n = magic ++ (frames hash a ++ u) := by
      rw [Seg.file, List.take_append, List.take_of_length_le (by omega), hmagic, htake]
    rw [hcut]
    rfl
  have hlen : (g'.file hash).bytes.length = headerBytes + (frames hash a).length + u.length :=
    g'.length_file
  -- the records behind the cut end after it
  have hlost : ∀ e ∈ ends g.id (headerBytes + (frames hash a).length) b,
      (g'.file hash).bytes.length < e.1.offset := by
    intro e he
    cases b with
    | nil => cases he
    | cons p b =>
      have hp := hhead p (by simp)
      rw [length_frame] at hp
      rw [ends, List.mem_cons] at he
      rcases he with rfl | he
      · rw [hlen, frameOverhead]
        simp only
        omega
      · obtain ⟨-, hlt, -⟩ := ends_bounds hash he
        rw [frameOverhead] at hlt
        omega
  have hentries : g.entries = ends g.id headerBytes a
      ++ ends g.id (headerBytes + (frames hash a).length) b := by
    rw [Seg.entries, hab, ends_append hash]
  refine ⟨g', rfl, ⟨hg.pos, ?_, hu, hg.synced⟩, hfile, ?_, ?_⟩
  · intro p hp
    exact hg.short p (hab ▸ List.mem_append_left _ hp)
  · rw [hentries, List.filter_append]
    have hkept : (ends g.id headerBytes a).filter
        (fun e => e.1.offset ≤ (g'.file hash).bytes.length) = ends g.id headerBytes a := by
      rw [List.filter_eq_self]
      intro e he
      obtain ⟨-, -, hle⟩ := ends_bounds hash he
      rw [decide_eq_true_eq, hlen]
      omega
    have hdropped : (ends g.id (headerBytes + (frames hash a).length) b).filter
        (fun e => e.1.offset ≤ (g'.file hash).bytes.length) = [] := by
      rw [List.filter_eq_nil_iff]
      intro e he
      rw [decide_eq_true_eq]
      exact Nat.not_le.mpr (hlost e he)
    rw [hkept, hdropped, List.append_nil]
    rfl
  · rintro c ⟨hseg, ⟨x, y, hxy, hoff⟩ | hpast⟩
    · refine ⟨hseg, ?_⟩
      rcases List.append_eq_append_iff.mp (hab.symm.trans hxy) with ⟨d, rfl, rfl⟩ | ⟨d, rfl, rfl⟩
      · -- the cursor was behind the cut, or at it
        cases d with
        | nil => exact .inl ⟨a, [], by simp [g'], by simpa using hoff⟩
        | cons p d =>
          right
          have hp := hhead p (by simp)
          rw [hlen, hoff, frames_append, frames_cons, List.length_append, List.length_append]
          omega
      · exact .inl ⟨x, d, rfl, hoff⟩
    · refine ⟨hseg, .inr ?_⟩
      rw [hfile]
      have := List.length_take_le n (g.file hash).bytes
      have := List.length_take_le' n (g.file hash).bytes
      show ((g.file hash).bytes.take n).length < c.offset
      omega

/-! ## What `peek` reads -/

theorem readPayload_frame {p : Bytes} (hlen : p.length < 2 ^ 32) (rest : Bytes) :
    readPayload hash (frame hash p ++ rest) = some (p, rest) := by
  rw [readPayload, readFrame_frame hlen rfl rfl]
  rfl

theorem readPayload_torn {t : Bytes} (h : Torn hash t) : readPayload hash t = none := by
  rw [readPayload, h.readFrame]
  rfl

/-- The inner loop takes the records of the segment up to `max`, and says whether it stopped
there. -/
theorem readLoop_frames {segment max : ℕ} {ps : List Bytes} {t : Bytes}
    (hps : ∀ p ∈ ps, p.length < 2 ^ 32) (ht : Torn hash t) {fuel : ℕ} (hfuel : ps.length < fuel)
    {out : List (Cursor × Bytes)} (hout : out.length ≤ max) (offset : ℕ) :
    readLoop hash segment max fuel out offset (frames hash ps ++ t)
      = if out.length + ps.length < max
        then (out ++ ends segment offset ps, offset + (frames hash ps).length, false)
        else (out ++ (ends segment offset ps).take (max - out.length),
          offset + (frames hash (ps.take (max - out.length))).length, true) := by
  induction ps generalizing fuel out offset with
  | nil =>
    obtain ⟨fuel, rfl⟩ := Nat.exists_eq_succ_of_ne_zero (Nat.ne_of_gt hfuel)
    by_cases hmax : out.length < max
    · simp [readLoop, hmax, Nat.not_le.mpr hmax, readPayload_torn ht, ends]
    · simp [readLoop, hmax, Nat.not_lt.mp hmax, ends]
  | cons p ps ih =>
    cases fuel with
    | zero => simp at hfuel
    | succ fuel =>
      rw [List.length_cons] at hfuel
      by_cases hmax : max ≤ out.length
      · have hzero : max - out.length = 0 := by omega
        have hnlt : ¬ out.length + (p :: ps).length < max := by
          rw [List.length_cons]
          omega
        rw [if_neg hnlt, readLoop, if_pos hmax, hzero]
        simp
      · have hout' : (out ++ [((⟨segment, offset + (frameOverhead + p.length)⟩ : Cursor), p)]).length
            ≤ max := by
          rw [List.length_append, List.length_singleton]
          omega
        have hsub : max - out.length = (max - (out.length + 1)) + 1 := by omega
        rw [readLoop, if_neg hmax, frames_cons, List.append_assoc,
          readPayload_frame (hps p List.mem_cons_self)]
        simp only
        rw [ih (fun q hq => hps q (List.mem_cons_of_mem _ hq)) (by omega) hout']
        simp only [List.length_append, List.length_cons, List.length_nil, ends, hsub,
          List.take_succ_cons, List.append_assoc, List.singleton_append, frames_cons, length_frame,
          frameOverhead, Nat.add_assoc, Nat.zero_add, Nat.add_comm 1 ps.length]

variable (hash) in
theorem length_le_frames (ps : List Bytes) : ps.length ≤ (frames hash ps).length := by
  induction ps with
  | nil => exact le_rfl
  | cons p ps ih =>
    rw [frames_cons, List.length_append, length_frame, List.length_cons]
    omega

/-- One round of the outer loop: what is left of the segment, then what the later segments
hold, up to `max`. -/
theorem peekLoop_segment {dir : Dir} {segment : ℕ} {f : SegmentFile}
    (hfile : dir.file segment = some f) {atSegment atOffset start : ℕ}
    (hstart : start = if atSegment < segment then headerBytes else atOffset)
    {b : List Bytes} {t : Bytes} (hdrop : f.bytes.drop start = frames hash b ++ t)
    (hb : ∀ p ∈ b, p.length < 2 ^ 32) (ht : Torn hash t) {max : ℕ}
    {out : List (Cursor × Bytes)} (hout : out.length ≤ max) {todo : List ℕ}
    {later : List (Cursor × Bytes)}
    (htodo : ∀ (off : ℕ) (out : List (Cursor × Bytes)), out.length ≤ max →
      peekLoop hash dir max todo segment off out = out ++ later.take (max - out.length)) :
    peekLoop hash dir max (segment :: todo) atSegment atOffset out
      = out ++ (ends segment start b ++ later).take (max - out.length) := by
  have hfuel : b.length < f.bytes.length + 1 := by
    have hlen := congrArg List.length hdrop
    have := length_le_frames hash b
    rw [List.length_drop, List.length_append] at hlen
    omega
  rw [peekLoop, hfile]
  simp only [← hstart, hdrop]
  rw [readLoop_frames hb ht hfuel hout]
  by_cases hmax : out.length + b.length < max
  · have hout' : (out ++ ends segment start b).length ≤ max := by
      rw [List.length_append, length_ends]
      omega
    have hall : (ends segment start b).take (max - out.length) = ends segment start b := by
      apply List.take_of_length_le
      rw [length_ends]
      omega
    have hleft : max - (out.length + b.length) = max - out.length - b.length := by omega
    rw [if_pos hmax]
    simp only
    rw [htodo _ _ hout', List.take_append, hall, List.length_append, length_ends, hleft,
      List.append_assoc]
  · have hle : max - out.length ≤ (ends segment start b).length := by
      rw [length_ends]
      omega
    rw [if_neg hmax, List.take_append_of_le_length hle]

/-- A directory that holds the segments `segs`, with increasing ids. -/
structure Dir.HoldsSegs (hash : Bytes → UInt32) (dir : Dir) (segs : List Seg) : Prop where
  files : dir.files = segs.map (Seg.file hash)
  ids : (segs.map Seg.id).Pairwise (· < ·)
  sound : ∀ g ∈ segs, g.Sound hash

namespace Dir.HoldsSegs

variable {dir : Dir} {segs : List Seg}

theorem listSegments (H : dir.HoldsSegs hash segs) : dir.listSegments = segs.map Seg.id := by
  have hids : dir.files.map SegmentFile.id = segs.map Seg.id := by
    rw [H.files, List.map_map]
    rfl
  rw [Dir.listSegments, hids]
  exact Lists.sortByKey_eq (List.Perm.refl _) (by simpa using H.ids)

theorem file_of_mem (H : dir.HoldsSegs hash segs) {g : Seg} (hg : g ∈ segs) :
    dir.file g.id = some (g.file hash) := by
  have hids := H.ids
  rw [Dir.file, H.files, List.find?_map]
  clear H
  induction segs with
  | nil => cases hg
  | cons x xs ih =>
    rw [List.map_cons, List.pairwise_cons] at hids
    rcases List.mem_cons.mp hg with rfl | hmem
    · simp [Seg.file]
    · have hlt := hids.1 g.id (List.mem_map_of_mem hmem)
      have hne : ((Seg.file hash x).id == g.id) = false := by simp [Seg.file, Nat.ne_of_lt hlt]
      rw [List.find?_cons, Function.comp_apply, hne]
      exact ih hmem hids.2

/-- One segment replaced by another with the same id. -/
theorem update (H : dir.HoldsSegs hash segs) {init : List Seg} {last last' : Seg}
    (hsegs : segs = init ++ [last]) {f : SegmentFile → SegmentFile}
    (hf : f (last.file hash) = last'.file hash) (hid : last'.id = last.id)
    (hsound : last'.Sound hash) :
    (dir.update last.id f).HoldsSegs hash (init ++ [last']) := by
  subst hsegs
  have hids := H.ids
  rw [List.map_append, List.pairwise_append] at hids
  have hinit : ∀ g ∈ init, g.id < last.id := by
    intro g hg
    exact hids.2.2 g.id (List.mem_map_of_mem hg) last.id (by simp)
  refine ⟨?_, ?_, ?_⟩
  · simp only [Dir.update, H.files, List.map_append]
    congr 1
    · rw [List.map_map]
      apply List.map_congr_left
      intro g hg
      exact if_neg (Nat.ne_of_lt (hinit g hg))
    · simp only [List.map_cons, List.map_nil]
      rw [if_pos (show (last.file hash).id = last.id from rfl), hf]
  · rw [List.map_append, List.map_singleton, hid, ← List.map_singleton, ← List.map_append]
    exact H.ids
  · intro g hg
    rcases List.mem_append.mp hg with hg | hg
    · exact H.sound g (List.mem_append_left _ hg)
    · rw [List.mem_singleton.mp hg]
      exact hsound

/-- The outer loop over the segments still to come, from the start of the next one on. -/
theorem peekLoop_eq (H : dir.HoldsSegs hash segs) {todo : List Seg} (hsub : todo <:+ segs)
    {atSegment : ℕ} (hat : ∀ g ∈ todo, atSegment < g.id) (atOffset : ℕ) {max : ℕ}
    {out : List (Cursor × Bytes)} (hout : out.length ≤ max) :
    peekLoop hash dir max (todo.map Seg.id) atSegment atOffset out
      = out ++ (todo.flatMap Seg.entries).take (max - out.length) := by
  induction todo generalizing atSegment atOffset out with
  | nil => simp [peekLoop]
  | cons g todo ih =>
    have hmem : g ∈ segs := hsub.subset List.mem_cons_self
    have hsound := H.sound g hmem
    have hlater : ∀ x ∈ todo, g.id < x.id := by
      have hpair := H.ids.sublist (hsub.sublist.map Seg.id)
      rw [List.map_cons, List.pairwise_cons] at hpair
      intro x hx
      exact hpair.1 x.id (List.mem_map_of_mem hx)
    rw [List.map_cons, List.flatMap_cons]
    have hdrop : (g.file hash).bytes.drop headerBytes = frames hash g.payloads ++ g.torn :=
      List.drop_left' rfl
    exact peekLoop_segment (H.file_of_mem hmem) (if_pos (hat g List.mem_cons_self)).symm hdrop
      hsound.short hsound.torn hout
      fun off _ hout => ih ((List.suffix_cons g todo).trans hsub) hlater off hout

theorem file_eq_none (H : dir.HoldsSegs hash segs) {i : ℕ} (h : ∀ g ∈ segs, g.id ≠ i) :
    dir.file i = none := by
  rw [Dir.file, H.files, List.find?_eq_none]
  intro f hf
  obtain ⟨g, hg, rfl⟩ := List.mem_map.mp hf
  simpa [Seg.file] using h g hg

theorem id_le (H : dir.HoldsSegs hash segs) {last : Seg} (hlast : segs.getLast? = some last)
    {g : Seg} (hg : g ∈ segs) : g.id ≤ last.id := by
  obtain ⟨init, rfl⟩ := List.getLast?_eq_some_iff.mp hlast
  have hids := H.ids
  rw [List.map_append, List.pairwise_append] at hids
  rcases List.mem_append.mp hg with hg | hg
  · exact le_of_lt (hids.2.2 g.id (List.mem_map_of_mem hg) last.id (by simp))
  · rw [List.mem_singleton.mp hg]

theorem le_id (H : dir.HoldsSegs hash segs) {first : Seg} (hfirst : segs.head? = some first)
    {g : Seg} (hg : g ∈ segs) : first.id ≤ g.id := by
  obtain ⟨rest, rfl⟩ := List.head?_eq_some_iff.mp hfirst
  have hids := H.ids
  rw [List.map_cons, List.pairwise_cons] at hids
  rcases List.mem_cons.mp hg with rfl | hg
  · exact le_rfl
  · exact le_of_lt (hids.1 g.id (List.mem_map_of_mem hg))

end Dir.HoldsSegs

/-! ## What a history keeps -/

/-- The segments on disk are `segs`, and the log is their records after those of the segments
that are gone. -/
structure History.Holds (hash : Bytes → UInt32) (h : History) (segs : List Seg)
    (first last : Seg) (gone : List (Cursor × Bytes)) : Prop where
  dir : h.spool.dir.HoldsSegs hash segs
  head : segs.head? = some first
  getLast : segs.getLast? = some last
  writer : h.spool.writer = last.id
  writeSegment : h.spool.writeSegment = last.id
  writeOffset : h.spool.writeOffset = (last.file hash).bytes.length
  log : h.log = gone ++ segs.flatMap Seg.entries
  gone : ∀ e ∈ gone, e.1.segment < h.spool.cursor.segment
  cursor : first.At hash h.spool.cursor
  saved : (h.spool.dir.cursor = none ∧ h.spool.cursor.offset = headerBytes) ∨
    readCursor h.spool.dir = h.spool.cursor

/-- What is left to read in the segment of the cursor. -/
theorem Seg.At.rest {g : Seg} {c : Cursor} (h : g.At hash c) (hg : g.Sound hash) :
    ∃ b t, (g.file hash).bytes.drop c.offset = frames hash b ++ t ∧
      (∀ p ∈ b, p.length < 2 ^ 32) ∧ Torn hash t ∧ g.entries.filter c.before = ends g.id c.offset b := by
  obtain ⟨hseg, ⟨a, b, hab, hoff⟩ | hpast⟩ := h
  · refine ⟨b, g.torn, ?_, ?_, hg.torn, ?_⟩
    · have hlen : (magic ++ frames hash a).length = c.offset := by
        rw [List.length_append, hoff]
        rfl
      rw [Seg.file, hab, frames_append, List.append_assoc, ← List.append_assoc magic]
      exact List.drop_left' hlen
    · intro p hp
      exact hg.short p (hab ▸ List.mem_append_right _ hp)
    · rw [Seg.entries, hab, ends_append hash, List.filter_append, ← hoff]
      have hbefore : (ends g.id headerBytes a).filter c.before = [] := by
        rw [List.filter_eq_nil_iff]
        intro e he
        obtain ⟨hs, -, hle⟩ := ends_bounds hash he
        simp only [Cursor.before, hs, hseg, lt_irrefl, decide_false, beq_self_eq_true,
          Bool.true_and, Bool.false_or, decide_eq_true_eq]
        omega
      rw [hbefore, List.nil_append, List.filter_eq_self]
      intro e he
      obtain ⟨hs, hlt, -⟩ := ends_bounds hash he
      simp [Cursor.before, hs, hseg, hlt]
  · refine ⟨[], [], ?_, by simp, .inl rfl, ?_⟩
    · rw [List.drop_eq_nil_of_le (Nat.le_of_lt hpast)]
      rfl
    · rw [ends, List.filter_eq_nil_iff]
      intro e he
      obtain ⟨hs, -, hle⟩ := ends_bounds hash he
      rw [Seg.length_file] at hpast
      simp only [Cursor.before, hs, hseg, lt_irrefl, decide_false, beq_self_eq_true,
        Bool.true_and, Bool.false_or, decide_eq_true_eq]
      omega

namespace History.Holds

variable {h : History} {segs : List Seg} {first last : Seg} {gone : List (Cursor × Bytes)}

/-- `peek` returns the logged records after the cursor, in order. -/
theorem peek_eq (H : h.Holds hash segs first last gone) (max : ℕ) :
    h.spool.peek hash max = (h.log.filter h.spool.cursor.before).take max := by
  obtain ⟨rest, rfl⟩ := List.head?_eq_some_iff.mp H.head
  have hids := H.dir.ids
  rw [List.map_cons, List.pairwise_cons] at hids
  have hlater : ∀ g ∈ rest, first.id < g.id := fun g hg => hids.1 g.id (List.mem_map_of_mem hg)
  have hseg := H.cursor.1
  obtain ⟨b, t, hdrop, hb, ht, hfirst⟩ := H.cursor.rest (H.dir.sound first List.mem_cons_self)
  -- the log after the cursor: what is left of the first segment, and all later ones
  have hgone : gone.filter h.spool.cursor.before = [] := by
    rw [List.filter_eq_nil_iff]
    intro e he
    have hlt := H.gone e he
    simp only [Cursor.before, Bool.or_eq_true, decide_eq_true_eq, Bool.and_eq_true, beq_iff_eq]
    omega
  have hrest : (rest.flatMap Seg.entries).filter h.spool.cursor.before
      = rest.flatMap Seg.entries := by
    rw [List.filter_eq_self]
    intro e he
    obtain ⟨g, hg, he⟩ := List.mem_flatMap.mp he
    obtain ⟨hs, -, -⟩ := ends_bounds hash he
    have := hlater g hg
    simp only [Cursor.before, Bool.or_eq_true, decide_eq_true_eq]
    omega
  have hlist : (h.spool.dir.listSegments.filter fun i => h.spool.cursor.segment ≤ i)
      = first.id :: rest.map Seg.id := by
    rw [H.dir.listSegments, List.map_cons, List.filter_eq_self]
    intro i hi
    rw [decide_eq_true_eq, hseg]
    rcases List.mem_cons.mp hi with rfl | hi
    · exact le_rfl
    · exact le_of_lt (hids.1 i hi)
  rw [H.log, List.filter_append, hgone, List.nil_append, List.flatMap_cons, List.filter_append,
    hfirst, hrest, Spool.peek, hlist]
  have hstart : h.spool.cursor.offset
      = if h.spool.cursor.segment < first.id then headerBytes else h.spool.cursor.offset := by
    rw [hseg, if_neg (lt_irrefl _)]
  exact peekLoop_segment (H.dir.file_of_mem List.mem_cons_self) hstart hdrop hb ht
    (Nat.zero_le _)
    fun off _ hout => H.dir.peekLoop_eq (List.suffix_cons first rest) hlater off hout

/-- A step that changes the last segment only. -/
theorem replaceLast {init : List Seg} (H : h.Holds hash (init ++ [last]) first last gone)
    {f : SegmentFile → SegmentFile} {last' : Seg} (hf : f (last.file hash) = last'.file hash)
    (hid : last'.id = last.id) (hsound : last'.Sound hash)
    (hat : last.At hash h.spool.cursor → last'.At hash h.spool.cursor) {s : Spool}
    (hdir : s.dir = h.spool.dir.update last.id f) (hwriter : s.writer = last.id)
    (hsegment : s.writeSegment = last.id)
    (hoffset : s.writeOffset = (last'.file hash).bytes.length)
    (hcursor : s.cursor = h.spool.cursor) {log gone' : List (Cursor × Bytes)}
    (hlog : log = gone' ++ (init ++ [last']).flatMap Seg.entries)
    (hgone : ∀ e ∈ gone', e.1.segment < h.spool.cursor.segment) :
    ∃ first', (⟨s, log⟩ : History).Holds hash (init ++ [last']) first' last' gone' := by
  have hhead : ∃ first', (init ++ [last']).head? = some first' ∧
      first'.At hash h.spool.cursor := by
    have hfirst := H.head
    have hcur := H.cursor
    cases init with
    | nil =>
      obtain rfl : last = first := by simpa using hfirst
      exact ⟨last', rfl, hat hcur⟩
    | cons g init =>
      obtain rfl : g = first := by simpa using hfirst
      exact ⟨g, rfl, hcur⟩
  obtain ⟨first', hfirst', hcur'⟩ := hhead
  refine ⟨first', ?_⟩
  exact
    { dir := hdir ▸ H.dir.update rfl hf hid hsound
      head := hfirst'
      getLast := by simp
      writer := hwriter.trans hid.symm
      writeSegment := hsegment.trans hid.symm
      writeOffset := hoffset
      log := hlog
      gone := by
        rw [hcursor]
        exact hgone
      cursor := by
        rw [hcursor]
        exact hcur'
      saved := by
        rw [hcursor, hdir]
        exact H.saved }

theorem sync {init : List Seg} (H : h.Holds hash (init ++ [last]) first last gone) :
    ∃ first', (⟨h.spool.sync, h.log⟩ : History).Holds hash
      (init ++ [{ last with synced := (last.file hash).bytes.length }]) first'
      { last with synced := (last.file hash).bytes.length } gone := by
  have hsound := H.dir.sound last (by simp)
  apply H.replaceLast (f := fun f => { f with synced := f.bytes.length })
  · rfl
  · rfl
  · refine ⟨hsound.pos, hsound.short, hsound.torn, ?_⟩
    show headerBytes ≤ (last.file hash).bytes.length
    rw [Seg.length_file]
    omega
  · exact id
  · rw [← H.writer]
    rfl
  · exact H.writer
  · exact H.writeSegment
  · exact H.writeOffset
  · rfl
  · rw [H.log]
    simp [Seg.entries]
  · exact H.gone

/-- A roll starts the next segment. -/
theorem roll {init : List Seg} (H : h.Holds hash (init ++ [last]) first last gone) :
    ∃ s first' last', h.spool.roll = (s, .ok ()) ∧
      (⟨s, h.log⟩ : History).Holds hash (init ++ [last'] ++ [⟨last.id + 1, [], [], headerBytes⟩])
        first' ⟨last.id + 1, [], [], headerBytes⟩ gone ∧ s.cursorPast = false := by
  obtain ⟨first', HS⟩ := H.sync
  set last' : Seg := { last with synced := (last.file hash).bytes.length } with hlast'
  have hmax : ∀ g ∈ init ++ [last'], g.id ≤ last.id := fun g hg => HS.dir.id_le HS.getLast hg
  have hnone : h.spool.sync.dir.file (last.id + 1) = none := by
    apply HS.dir.file_eq_none
    intro g hg
    have := hmax g hg
    omega
  have hfirst : first' ∈ init ++ [last'] := List.mem_of_head? HS.head
  have hsegment : h.spool.sync.writeSegment = last.id := HS.writeSegment
  have hcur : h.spool.sync.cursor.segment = first'.id := HS.cursor.1
  let s : Spool :=
    { h.spool.sync with
      dir := { h.spool.sync.dir with
        files := h.spool.sync.dir.files ++ [⟨last.id + 1, magic, headerBytes⟩] }
      writeSegment := last.id + 1
      writer := last.id + 1
      writeOffset := headerBytes }
  have hroll : h.spool.roll = (s, .ok ()) := by
    rw [Spool.roll]
    simp only [hsegment, openSegmentForAppend, hnone]
    rfl
  refine ⟨s, first', last', hroll, ?_, ?_⟩
  · exact
      { dir :=
          { files := by
              show h.spool.sync.dir.files ++ _ = _
              rw [List.map_append, HS.dir.files]
              rfl
            ids := by
              rw [List.map_append, List.pairwise_append]
              refine ⟨HS.dir.ids, by simp, ?_⟩
              intro a ha b hb
              obtain ⟨g, hg, rfl⟩ := List.mem_map.mp ha
              have := hmax g hg
              have hb' : b = last.id + 1 := by simpa using hb
              omega
            sound := by
              intro g hg
              rcases List.mem_append.mp hg with hg | hg
              · exact HS.dir.sound g hg
              · rw [List.mem_singleton.mp hg]
                exact ⟨Nat.succ_pos _, by simp, .inl rfl, le_rfl⟩ }
        head := by
          rw [List.head?_append, HS.head]
          rfl
        getLast := by simp
        writer := rfl
        writeSegment := rfl
        writeOffset := rfl
        log := by
          rw [List.flatMap_append, ← List.append_assoc, ← HS.log]
          simp [Seg.entries, ends]
        gone := HS.gone
        cursor := HS.cursor
        saved := HS.saved }
  · have := hmax first' hfirst
    simp only [Spool.cursorPast, Bool.and_eq_false_iff, beq_eq_false_iff_ne]
    left
    show h.spool.sync.cursor.segment ≠ last.id + 1
    omega

/-- A frame appended behind whole frames and not before the cursor. -/
theorem appendFrame {init : List Seg} (H : h.Holds hash (init ++ [last]) first last gone)
    {p : Bytes} (hp : p.length < 2 ^ 32) (htorn : last.torn = [])
    (hpast : h.spool.cursorPast = false) :
    ∃ segs' first' last', (⟨h.spool.appendFrame hash p,
      h.log ++ [(⟨(h.spool.appendFrame hash p).writeSegment,
        (h.spool.appendFrame hash p).writeOffset⟩, p)]⟩ : History).Holds hash
        segs' first' last' gone := by
  have hsound := H.dir.sound last (by simp)
  have hlen := @Seg.length_file hash last
  have hoffset := H.writeOffset
  rw [htorn, List.length_nil] at hlen
  let last' : Seg := { last with payloads := last.payloads ++ [p] }
  have hfile : (last'.file hash).bytes = (last.file hash).bytes ++ frame hash p := by
    simp [last', Seg.file, htorn]
  refine ⟨init ++ [last'], ?_⟩
  suffices hlast : ∃ first', History.Holds hash _ (init ++ [last']) first' last' gone by
    obtain ⟨first', hlast⟩ := hlast
    exact ⟨first', last', hlast⟩
  apply H.replaceLast (f := fun f => { f with bytes := f.bytes ++ frame hash p })
  · show (⟨last.id, (last.file hash).bytes ++ frame hash p, last.synced⟩ : SegmentFile) = _
    rw [← hfile]
    rfl
  · rfl
  · refine ⟨hsound.pos, ?_, hsound.torn, hsound.synced⟩
    intro q hq
    rcases List.mem_append.mp hq with hq | hq
    · exact hsound.short q hq
    · rw [List.mem_singleton.mp hq]
      exact hp
  · rintro ⟨hseg, ⟨a, b, hab, hoff⟩ | hlt⟩
    · refine ⟨hseg, .inl ⟨a, b ++ [p], ?_, hoff⟩⟩
      show last.payloads ++ [p] = _
      rw [hab, List.append_assoc]
    · -- a cursor past the end is excluded
      exfalso
      simp only [Spool.cursorPast, H.writer, hseg, beq_self_eq_true, Bool.true_and,
        decide_eq_false_iff_not] at hpast
      omega
  · rw [Spool.appendFrame, H.writer]
  · exact H.writer
  · exact H.writeSegment
  · show h.spool.writeOffset + (frame hash p).length = _
    rw [hfile, List.length_append, hoffset]
  · rfl
  · have hend : (⟨(h.spool.appendFrame hash p).writeSegment,
        (h.spool.appendFrame hash p).writeOffset⟩ : Cursor)
        = ⟨last.id, headerBytes + (frames hash last.payloads).length
            + (frameOverhead + p.length)⟩ := by
      simp only [Spool.appendFrame, H.writeSegment, length_frame, hoffset, hlen, frameOverhead]
      rfl
    rw [H.log, hend, List.flatMap_append, List.flatMap_append]
    simp [last', Seg.entries, ends_append hash, ends]
  · exact H.gone

theorem torn_eq_nil {init : List Seg} (H : h.Holds hash (init ++ [last]) first last gone)
    (hwhole : h.spool.wholeTail hash = true) : last.torn = [] := by
  have hsound := H.dir.sound last (by simp)
  have hdrop : (last.file hash).bytes.drop headerBytes = frames hash last.payloads ++ last.torn :=
    List.drop_left' rfl
  have hread : scan hash (fun _ => true) some (frames hash last.payloads ++ last.torn)
      = last.payloads.map fun p => (p, p) := by
    have hfst : last.payloads = (last.payloads.map fun p => (p, p)).map Prod.fst := by
      rw [List.map_map]
      exact (List.map_id _).symm
    have hok : ∀ x ∈ last.payloads.map fun p => (p, p),
        x.1.length < 2 ^ 32 ∧ true = true ∧ some x.1 = some x.2 := by
      intro x hx
      obtain ⟨p, hp, rfl⟩ := List.mem_map.mp hx
      exact ⟨hsound.short p hp, rfl, rfl⟩
    rw [hfst, scan_frames_append last.torn hok, scan_of_none hsound.torn.readFrame,
      List.append_nil, ← hfst]
  have hsum : ((last.payloads.map fun p => (p, p)).map
      fun x : Bytes × Bytes => frameOverhead + x.1.length).sum
      = (frames hash last.payloads).length := by
    rw [List.map_map, frames, List.length_flatMap]
    congr 1
    apply List.map_congr_left
    intro p _
    rw [length_frame]
    rfl
  have hfile : h.spool.dir.file h.spool.writer = some (last.file hash) := by
    rw [H.writer]
    exact H.dir.file_of_mem (by simp)
  rw [Spool.wholeTail, hfile] at hwhole
  simp only [hdrop, hread, hsum, Seg.length_file, beq_iff_eq] at hwhole
  exact List.length_eq_zero_iff.mp (by omega)

/-- A commit at a cursor that `peek` returns removes the segments behind it. -/
theorem commit (H : h.Holds hash segs first last gone) {c : Cursor} (hs : c.segment < 2 ^ 64)
    (ho : c.offset < 2 ^ 64) {max : ℕ} (hc : c ∈ (h.spool.peek hash max).map Prod.fst) :
    ∃ segs' first' gone', (⟨h.spool.commit c, h.log⟩ : History).Holds hash
      segs' first' last gone' := by
  obtain ⟨e, he, rfl⟩ := List.mem_map.mp hc
  rw [H.peek_eq] at he
  -- the record is in one of the segments on disk
  obtain ⟨helog, hebefore⟩ := List.mem_filter.mp (List.mem_of_mem_take he)
  have hmem : e ∈ segs.flatMap Seg.entries := by
    rw [H.log] at helog
    rcases List.mem_append.mp helog with hgone | hmem
    · exfalso
      have := H.gone e hgone
      simp only [Cursor.before, Bool.or_eq_true, decide_eq_true_eq, Bool.and_eq_true,
        beq_iff_eq] at hebefore
      omega
    · exact hmem
  obtain ⟨g, hg, heg⟩ := List.mem_flatMap.mp hmem
  obtain ⟨hseg, -, -⟩ := ends_bounds hash heg
  obtain ⟨pre, post, rfl⟩ := List.append_of_mem hg
  have hids := H.dir.ids
  rw [List.map_append, List.map_cons, List.pairwise_append, List.pairwise_cons] at hids
  have hpre : ∀ x ∈ pre, x.id < g.id := fun x hx =>
    hids.2.2 x.id (List.mem_map_of_mem hx) g.id (by simp)
  have hpost : ∀ x ∈ post, g.id < x.id := fun x hx =>
    hids.2.1.1 x.id (List.mem_map_of_mem hx)
  have hlast : g.id ≤ last.id := H.dir.id_le H.getLast hg
  have hfirst : first.id ≤ g.id := H.dir.le_id H.head hg
  have hfiles : ((h.spool.dir.files.filter fun f =>
      !(f.id < e.1.segment && f.id != h.spool.writeSegment)))
      = (g :: post).map (Seg.file hash) := by
    rw [H.dir.files, List.map_append, List.filter_append]
    have hgone : (pre.map (Seg.file hash)).filter (fun f =>
        !(f.id < e.1.segment && f.id != h.spool.writeSegment)) = [] := by
      rw [List.filter_eq_nil_iff]
      intro f hf
      obtain ⟨x, hx, rfl⟩ := List.mem_map.mp hf
      have := hpre x hx
      have hne : x.id ≠ last.id := by omega
      simp [Seg.file, hseg, H.writeSegment, this, hne]
    rw [hgone, List.nil_append, List.filter_eq_self]
    intro f hf
    obtain ⟨x, hx, rfl⟩ := List.mem_map.mp hf
    have hle : g.id ≤ x.id := by
      rcases List.mem_cons.mp hx with rfl | hx
      · exact le_rfl
      · exact le_of_lt (hpost x hx)
    simp [Seg.file, hseg, Nat.not_lt.mpr hle]
  refine ⟨g :: post, g, gone ++ pre.flatMap Seg.entries, ?_⟩
  exact
    { dir :=
        { files := hfiles
          ids := by
            rw [List.map_cons, List.pairwise_cons]
            exact hids.2.1
          sound := fun x hx => H.dir.sound x (List.mem_append_right _ hx) }
      head := rfl
      getLast := by
        have := H.getLast
        rwa [List.getLast?_append_of_ne_nil _ (by simp)] at this
      writer := H.writer
      writeSegment := H.writeSegment
      writeOffset := H.writeOffset
      log := by
        rw [List.append_assoc, ← List.flatMap_append]
        exact H.log
      gone := by
        intro x hx
        show x.1.segment < e.1.segment
        rcases List.mem_append.mp hx with hx | hx
        · have := H.gone x hx
          have := H.cursor.1
          omega
        · obtain ⟨y, hy, hx⟩ := List.mem_flatMap.mp hx
          obtain ⟨hxs, -, -⟩ := ends_bounds hash hx
          have := hpre y hy
          omega
      cursor := ⟨hseg, .inl (split_of_mem_ends hash heg)⟩
      saved := .inr (readCursor_writeCursor h.spool.dir hs ho) }

/-- A restart finds the segments and the cursor again, without the records the crash cut. -/
theorem reopen {init : List Seg} (H : h.Holds hash (init ++ [last]) first last gone) (cut : ℕ) :
    ∃ s segs' first' last' gone', Spool.open (h.spool.crash cut) h.spool.config = .ok s ∧
      s.cursor = h.spool.cursor ∧
      (⟨s, h.log.filter (h.spool.crash cut).holds⟩ : History).Holds hash
        segs' first' last' gone' := by
  have hsound := H.dir.sound last (by simp)
  have hn : headerBytes ≤ max cut last.synced := le_trans hsound.synced (le_max_right _ _)
  obtain ⟨last', hid, hsound', hfile, hentries, hat⟩ := hsound.cut hn
  let f : SegmentFile → SegmentFile := fun f => { f with bytes := f.bytes.take (max cut f.synced) }
  have hf : f (last.file hash) = last'.file hash := hfile.symm
  have hcrash : h.spool.crash cut = h.spool.dir.update last.id f := by
    rw [← H.writer]
    rfl
  have HD : (h.spool.crash cut).HoldsSegs hash (init ++ [last']) := by
    rw [hcrash]
    exact H.dir.update rfl hf hid hsound'
  have hread : readCursor (h.spool.crash cut) = readCursor h.spool.dir := rfl
  obtain ⟨rest, hrest⟩ := List.head?_eq_some_iff.mp H.head
  have hheadId : (h.spool.crash cut).listSegments.head? = some first.id := by
    have hids : (init ++ [last']).map Seg.id = (init ++ [last]).map Seg.id := by simp [hid]
    rw [HD.listSegments, hids, hrest]
    rfl
  have hlastId : (h.spool.crash cut).listSegments.getLast? = some last.id := by
    rw [HD.listSegments, List.map_append, List.getLast?_append]
    simp [hid]
  have hopen : openSegmentForAppend (h.spool.crash cut) last.id
      = .ok (h.spool.crash cut, (last'.file hash).bytes.length) := by
    have hlen := @Seg.length_file hash last'
    have hmagic : (last'.file hash).bytes.take 8 = magic := List.take_left' rfl
    have h8 : ¬ (last'.file hash).bytes.length < 8 := by
      rw [hlen, headerBytes]
      omega
    rw [openSegmentForAppend, ← hid, HD.file_of_mem (by simp)]
    simp [h8, hmagic]
  have hcursor : (if (readCursor h.spool.dir).segment = 0
      then (⟨first.id, headerBytes⟩ : Cursor) else readCursor h.spool.dir) = h.spool.cursor := by
    have hpos : 0 < first.id := (H.dir.sound first (List.mem_of_head? H.head)).pos
    have hseg := H.cursor.1
    rcases H.saved with ⟨hnone, hoff⟩ | hsaved
    · simp only [readCursor, hnone, if_true]
      rw [← hseg, ← hoff]
    · rw [hsaved, if_neg (by omega)]
  let s : Spool :=
    { dir := h.spool.crash cut
      config := h.spool.config
      writeSegment := last.id
      writer := last.id
      writeOffset := (last'.file hash).bytes.length
      cursor := h.spool.cursor
      droppedFull := 0 }
  have hs : Spool.open (h.spool.crash cut) h.spool.config = .ok s := by
    simp only [Spool.open, hlastId, hheadId, hread, Option.getD_some, hopen, hcursor]
    rfl
  -- of the log, only records of the last segment are cut
  have hinit : (init.flatMap Seg.entries).filter (h.spool.crash cut).holds
      = init.flatMap Seg.entries := by
    rw [List.filter_eq_self]
    intro e he
    obtain ⟨g, hg, he⟩ := List.mem_flatMap.mp he
    obtain ⟨hseg, -, hle⟩ := ends_bounds hash he
    have hlen := @Seg.length_file hash g
    simp only [Dir.holds, hseg, HD.file_of_mem (List.mem_append_left _ hg), decide_eq_true_eq]
    omega
  have hlast : last.entries.filter (h.spool.crash cut).holds = last'.entries := by
    rw [hentries]
    apply List.filter_congr
    intro e he
    obtain ⟨hseg, -, -⟩ := ends_bounds hash he
    simp only [Dir.holds, hseg, ← hid, HD.file_of_mem (show last' ∈ init ++ [last'] by simp)]
  have hlog : h.log.filter (h.spool.crash cut).holds
      = gone.filter (h.spool.crash cut).holds ++ (init ++ [last']).flatMap Seg.entries := by
    rw [H.log, List.filter_append, List.flatMap_append, List.filter_append, hinit,
      List.flatMap_append]
    simp [hlast]
  have hgone : ∀ e ∈ gone.filter (h.spool.crash cut).holds,
      e.1.segment < h.spool.cursor.segment := fun e he => H.gone e (List.mem_of_mem_filter he)
  obtain ⟨first', H'⟩ := H.replaceLast hf hid hsound' (hat _) (s := s) hcrash rfl rfl rfl rfl
    hlog hgone
  exact ⟨s, _, first', last', _, hs, rfl, H'⟩

end History.Holds

/-! ## Every history -/

variable (hash) in
def History.Inv (h : History) : Prop := ∃ segs first last gone, h.Holds hash segs first last gone

variable (hash) in
theorem History.inv_init (config : SpoolConfig) : (History.init config).Inv hash := by
  let g : Seg := ⟨1, [], [], headerBytes⟩
  refine ⟨[g], g, g, [], ?_⟩
  exact
    { dir :=
        { files := rfl
          ids := by simp
          sound := by
            intro x hx
            rw [List.mem_singleton.mp hx]
            exact ⟨Nat.one_pos, by simp [g], .inl rfl, le_rfl⟩ }
      head := rfl
      getLast := rfl
      writer := rfl
      writeSegment := rfl
      writeOffset := rfl
      log := rfl
      gone := by simp
      cursor := ⟨rfl, .inl ⟨[], [], rfl, rfl⟩⟩
      saved := .inl ⟨rfl, rfl⟩ }

theorem History.Inv.push {h : History} (hinv : h.Inv hash) {p : Bytes}
    (hok : h.Ok hash (.push p)) : (h.step hash (.push p)).Inv hash := by
  obtain ⟨segs, first, last, gone, H⟩ := hinv
  obtain ⟨hp, hok⟩ := hok
  obtain ⟨init, rfl⟩ := List.getLast?_eq_some_iff.mp H.getLast
  rw [History.step, Spool.push]
  by_cases hlarge : h.spool.config.maxRecordBytes < p.length
  · rw [if_pos hlarge]
    exact ⟨_, first, last, gone, H⟩
  · rw [if_neg hlarge]
    by_cases hfull : h.spool.config.maxTotalBytes < h.spool.totalBytes + p.length
    · rw [if_pos hfull]
      exact ⟨_, first, last, gone, { H with }⟩
    · rw [if_neg hfull]
      by_cases hroll : h.spool.rolls p.length = true
      · obtain ⟨s, first', last', hs, HR, hpast⟩ := H.roll
        obtain ⟨segs', first'', last'', HA⟩ := HR.appendFrame hp rfl hpast
        rw [if_pos hroll, hs]
        exact ⟨segs', first'', last'', gone, HA⟩
      · rw [if_neg hroll]
        obtain ⟨hwhole, hpast⟩ : h.spool.wholeTail hash = true ∧ h.spool.cursorPast = false := by
          tauto
        obtain ⟨segs', first', last', HA⟩ := H.appendFrame hp (H.torn_eq_nil hwhole) hpast
        exact ⟨segs', first', last', gone, HA⟩

theorem History.inv_step (h : History) (e : Event) (hinv : h.Inv hash) (hok : h.Ok hash e) :
    (h.step hash e).Inv hash := by
  cases e with
  | push p => exact hinv.push hok
  | sync =>
    obtain ⟨segs, first, last, gone, H⟩ := hinv
    obtain ⟨init, rfl⟩ := List.getLast?_eq_some_iff.mp H.getLast
    obtain ⟨first', HS⟩ := H.sync
    exact ⟨_, first', _, gone, HS⟩
  | commit c =>
    obtain ⟨segs, first, last, gone, H⟩ := hinv
    obtain ⟨hs, ho, max, hc⟩ := hok
    obtain ⟨segs', first', gone', HC⟩ := H.commit hs ho hc
    exact ⟨segs', first', last, gone', HC⟩
  | reopen cut =>
    obtain ⟨segs, first, last, gone, H⟩ := hinv
    obtain ⟨init, rfl⟩ := List.getLast?_eq_some_iff.mp H.getLast
    obtain ⟨s, segs', first', last', gone', hs, -, HR⟩ := H.reopen cut
    rw [History.step]
    simp only [hs]
    exact ⟨segs', first', last', gone', HR⟩

variable (hash) in
/-- Along a history whose pushes land behind whole frames, `peek` returns the accepted
records after the cursor that are on disk, in order, each once and with the cursor at
its end. -/
theorem peek_delivers (config : SpoolConfig) (es : List Event)
    (hok : Runs.Meets (History.step hash) (History.Ok hash) (History.init config) es) (max : ℕ) :
    let h := Runs.run (History.step hash) (History.init config) es
    h.spool.peek hash max = (h.log.filter h.spool.cursor.before).take max := by
  intro h
  obtain ⟨segs, first, last, gone, H⟩ : h.Inv hash :=
    hok.invariant History.inv_step (History.inv_init hash config)
  exact H.peek_eq max

/-- A history with a torn record whose successor goes to the next segment. -/
def tornThenRolled : List Event :=
  [.push [1, 2, 3], .sync, .push [4], .reopen 22, .push [5, 6, 7], .commit ⟨1, 19⟩]

theorem peek_delivers_after_roll :
    let h := Runs.run (History.step Wal.Postcard.hash) (History.init ⟨32, 1024, 64⟩) tornThenRolled
    h.spool.peek Wal.Postcard.hash 10 = (h.log.filter h.spool.cursor.before).take 10 ∧
      h.log = [(⟨1, 19⟩, [1, 2, 3]), (⟨2, 19⟩, [5, 6, 7])] ∧ h.spool.cursor = ⟨1, 19⟩ := by
  refine ⟨peek_delivers Wal.Postcard.hash _ _ ?_ 10, by decide +kernel, by decide +kernel⟩
  refine ⟨⟨by decide, ?_⟩, trivial, ⟨by decide, ?_⟩, trivial, ⟨by decide, ?_⟩,
    ⟨by decide, by decide, 10, ?_⟩, trivial⟩
  · exact .inr (.inr (.inr ⟨by decide +kernel, by decide +kernel⟩))
  · exact .inr (.inr (.inr ⟨by decide +kernel, by decide +kernel⟩))
  · exact .inr (.inr (.inl (by decide +kernel)))
  · decide +kernel

/-- A record pushed behind a torn frame is after the cursor and on disk, and not returned. -/
theorem peek_stops_at_torn :
    let h := Runs.run (History.step Wal.Postcard.hash) (History.init .default)
      [.push [1, 2, 3], .reopen 15, .push [4]]
    h.log.filter h.spool.cursor.before = [(⟨1, 24⟩, [4])] ∧ h.spool.peek Wal.Postcard.hash 10 = [] := by
  decide +kernel

end LogLess.Outbound
