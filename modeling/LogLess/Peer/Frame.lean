import LogLess.Lib.Lists
import LogLess.Peer.Provenance
import LogLess.Serde

/-!
# Sync frames

The sender writes the records it forwards as lines of JSON, packed into frames of about a
mebibyte (`encodeFrames`). The receiver reads a body line by line and answers 400 for one
that is not a record (`parseBody`), whereupon the sender drops the frame.

`frames_round_trip_iff`: the frames of a batch come back record for record exactly if every
float on a record that is sent is one that JSON gives back.
-/

namespace LogLess.Peer

open Serde

/-- `FRAME_BYTES`. -/
def frameBytes : ℕ := 1024 * 1024

structure EncodeState where
  frames : List (List UInt8 × ℕ)
  current : List UInt8
  inCurrent : ℕ
  total : ℕ

section

variable (fl : FloatText) (ownInstance : Text) (minSeverity : UInt8)

/-- What the sender leaves out. -/
def skipped (r : LogRecord) : Bool := r.severity.num < minSeverity || isLoop r ownInstance

def line (r : LogRecord) : List UInt8 := toVec fl r ++ [0x0A]

/-- One turn of the loop of `encode_frames`. -/
def encodeRecord (s : EncodeState) (r : LogRecord) : EncodeState :=
  if skipped ownInstance minSeverity r then s
  else
    let l := line fl (stampForSend r ownInstance)
    let s :=
      if s.current ≠ [] ∧ frameBytes < s.current.length + l.length then
        { s with frames := s.frames ++ [(s.current, s.inCurrent)], current := [], inCurrent := 0 }
      else s
    { s with current := s.current ++ l, inCurrent := s.inCurrent + 1, total := s.total + 1 }

/-- The frames of a batch, each with the number of its records, and how many there are. -/
def encodeFrames (batch : List LogRecord) : List (List UInt8 × ℕ) × ℕ :=
  let s := batch.foldl (encodeRecord fl ownInstance minSeverity) ⟨[], [], 0, 0⟩
  (if s.current ≠ [] then s.frames ++ [(s.current, s.inCurrent)] else s.frames, s.total)

/-- `u8::is_ascii_whitespace`. -/
def isAsciiWhitespace (b : UInt8) : Bool :=
  b == 0x20 || b == 0x09 || b == 0x0A || b == 0x0C || b == 0x0D

/-- The lines of a body from one on. The error is the number of the line that is refused. -/
def parseLines : ℕ → List (List UInt8) → Except ℕ (List LogRecord)
  | _, [] => .ok []
  | index, l :: lines =>
    if l.all isAsciiWhitespace then parseLines (index + 1) lines
    else
      match fromSlice fl l with
      | some r => (parseLines (index + 1) lines).map (r :: ·)
      | none => .error (index + 1)

/-- The records of a request, as `ingest` reads them. -/
def parseBody (body : List UInt8) : Except ℕ (List LogRecord) :=
  parseLines fl 0 (body.splitOnP (· == 0x0A))

/-- The records of a batch that are sent, as they are sent. -/
def stampedRecords (batch : List LogRecord) : List LogRecord :=
  (batch.filter fun r => !skipped ownInstance minSeverity r).map (stampForSend · ownInstance)

end

/-! ## What is in the frames -/

section

variable {fl : FloatText} {own : Text} {minSeverity : UInt8}

/-- The lines of some records. -/
def linesOf (fl : FloatText) (rs : List LogRecord) : List UInt8 := rs.flatMap (line fl)

theorem linesOf_ne_nil {rs : List LogRecord} : linesOf fl rs ≠ [] ↔ rs ≠ [] := by
  cases rs with
  | nil => simp [linesOf]
  | cons r rs => simp [linesOf, line]

/-- A frame holds a group of records: too many bytes only if it is a single one. -/
def FrameOf (fl : FloatText) (f : List UInt8 × ℕ) (group : List LogRecord) : Prop :=
  f = (linesOf fl group, group.length) ∧ group ≠ [] ∧ (f.1.length ≤ frameBytes ∨ f.2 = 1)

/-- The loop has written `sent` so far. -/
def Encoded (fl : FloatText) (s : EncodeState) (sent : List LogRecord) : Prop :=
  ∃ groups current, List.Forall₂ (FrameOf fl) s.frames groups ∧
    s.current = linesOf fl current ∧ s.inCurrent = current.length ∧
    (s.current.length ≤ frameBytes ∨ s.inCurrent = 1) ∧
    groups.flatten ++ current = sent ∧ s.total = sent.length

theorem encoded_encodeRecord {s : EncodeState} {sent : List LogRecord} (h : Encoded fl s sent)
    (r : LogRecord) :
    Encoded fl (encodeRecord fl own minSeverity s r) (sent ++ stampedRecords own minSeverity [r]) := by
  obtain ⟨groups, current, hframes, hcurrent, hin, hsize, hsent, htotal⟩ := h
  rw [encodeRecord, stampedRecords]
  by_cases hskip : skipped own minSeverity r = true
  · rw [if_pos hskip]
    exact ⟨groups, current, hframes, hcurrent, hin, hsize, by simpa [hskip] using hsent,
      by simpa [hskip] using htotal⟩
  · rw [if_neg hskip]
    have hone : ([r].filter fun r => !skipped own minSeverity r).map (stampForSend · own)
        = [stampForSend r own] := by simp [hskip]
    rw [hone]
    generalize stampForSend r own = x
    simp only
    split
    · next hfull =>
      -- the frame so far is full: the record begins a new one
      have hne : current ≠ [] := linesOf_ne_nil.mp (hcurrent ▸ hfull.1)
      refine ⟨groups ++ [current], [x], ?_, by simp [linesOf], rfl, .inr rfl, by simp [← hsent],
        by simp [htotal]⟩
      exact List.rel_append hframes (.cons ⟨by rw [hcurrent, hin], hne, hsize⟩ .nil)
    · next hfits =>
      refine ⟨groups, current ++ [x], hframes, by simp [hcurrent, linesOf], by simp [hin], ?_,
        by simp [← hsent], by simp [htotal]⟩
      by_cases hnil : s.current = []
      · have hnone : current = [] := by
          by_contra hne
          exact linesOf_ne_nil.mpr hne (hcurrent ▸ hnil)
        exact .inr (by simp [hin, hnone])
      · rw [List.length_append]
        exact .inl (by simpa [hnil] using hfits)

theorem encoded_foldl (own : Text) (minSeverity : UInt8) {s : EncodeState}
    {sent : List LogRecord} (h : Encoded fl s sent) (batch : List LogRecord) :
    Encoded fl (batch.foldl (encodeRecord fl own minSeverity) s)
      (sent ++ stampedRecords own minSeverity batch) := by
  induction batch generalizing s sent with
  | nil => simpa [stampedRecords] using h
  | cons r batch ih =>
    have hcons : stampedRecords own minSeverity (r :: batch)
        = stampedRecords own minSeverity [r] ++ stampedRecords own minSeverity batch := by
      rw [stampedRecords, ← List.singleton_append, List.filter_append, List.map_append]
      rfl
    rw [hcons, ← List.append_assoc]
    exact ih (encoded_encodeRecord h r)

/-- The frames hold the records that are sent, in order, and none twice. -/
theorem encodeFrames_groups (fl : FloatText) (own : Text) (minSeverity : UInt8)
    (batch : List LogRecord) :
    ∃ groups, List.Forall₂ (FrameOf fl) (encodeFrames fl own minSeverity batch).1 groups ∧
      groups.flatten = stampedRecords own minSeverity batch ∧
      (encodeFrames fl own minSeverity batch).2
        = (stampedRecords own minSeverity batch).length := by
  have hstart : Encoded fl ⟨[], [], 0, 0⟩ [] :=
    ⟨[], [], .nil, rfl, rfl, .inl (Nat.zero_le _), rfl, rfl⟩
  have hend := encoded_foldl own minSeverity hstart batch
  rw [List.nil_append] at hend
  obtain ⟨groups, current, hframes, hcurrent, hin, hsize, hsent, htotal⟩ := hend
  simp only [encodeFrames]
  split
  · next hne =>
    have hcur : current ≠ [] := linesOf_ne_nil.mp (hcurrent ▸ hne)
    refine ⟨groups ++ [current], ?_, by simpa using hsent, htotal⟩
    exact List.rel_append hframes (.cons ⟨by rw [hcurrent, hin], hcur, hsize⟩ .nil)
  · next hnil =>
    have hcur : current = [] := by
      by_contra hne
      exact hnil (hcurrent ▸ linesOf_ne_nil.mpr hne)
    exact ⟨groups, hframes, by simpa [hcur] using hsent, htotal⟩

/-! ## What the receiver reads -/

theorem splitOnP_linesOf (rs : List LogRecord) :
    (linesOf fl rs).splitOnP (· == 0x0A) = rs.map (toVec fl) ++ [[]] := by
  induction rs with
  | nil => rfl
  | cons r rs ih =>
    have hline : (toVec fl r).splitOnP (· == 0x0A) = [toVec fl r] := by
      apply List.splitOnP_eq_singleton
      intro b hb
      rw [beq_eq_false_iff_ne]
      rintro rfl
      exact absurd (le_of_mem_toVec fl hb) (by decide)
    have hcons : linesOf fl (r :: rs) = toVec fl r ++ 0x0A :: linesOf fl rs := by
      simp [linesOf, line]
    rw [hcons, List.splitOnP_append_cons _ _ (by decide), hline, ih]
    rfl

theorem not_blank_toVec (r : LogRecord) : (toVec fl r).all isAsciiWhitespace = false := by
  obtain ⟨rest, hrest⟩ := toVec_eq_cons fl r
  rw [hrest, List.all_cons]
  rfl

/-- A frame is accepted exactly if each of its records comes back in some form. -/
theorem parseLines_map_toVec {rs : List LogRecord} (h : ∀ r ∈ rs, r.intsFit = true) (index : ℕ)
    (out : List LogRecord) :
    parseLines fl index (rs.map (toVec fl) ++ [[]]) = .ok out ↔
      List.Forall₂ (fun r x => rereadRecord fl r = some x) rs out := by
  induction rs generalizing index out with
  | nil => simp [parseLines, eq_comm]
  | cons r rs ih =>
    have hrest := ih (fun x hx => h x (List.mem_cons_of_mem r hx)) (index + 1)
    rw [List.map_cons, List.cons_append, parseLines, not_blank_toVec, List.forall₂_cons_left_iff]
    simp only [Bool.false_eq_true, if_false, fromSlice_toVec fl (h r List.mem_cons_self)]
    constructor
    · intro hok
      split at hok
      · next x hx =>
        cases hp : parseLines fl (index + 1) (rs.map (toVec fl) ++ [[]]) with
        | error e => rw [hp] at hok; cases hok
        | ok xs =>
          rw [hp] at hok
          exact ⟨x, xs, hx, (hrest xs).mp hp, (Except.ok.inj hok).symm⟩
      · cases hok
    · rintro ⟨x, xs, hx, hxs, rfl⟩
      rw [hx, (hrest xs).mpr hxs]
      rfl

theorem parseBody_linesOf {rs : List LogRecord} (h : ∀ r ∈ rs, r.intsFit = true)
    (out : List LogRecord) :
    parseBody fl (linesOf fl rs) = .ok out ↔
      List.Forall₂ (fun r x => rereadRecord fl r = some x) rs out := by
  rw [parseBody, splitOnP_linesOf, parseLines_map_toVec h]

theorem intsFit_stampForSend {r : LogRecord} (h : r.intsFit = true) (own : Text) :
    (stampForSend r own).intsFit = true := by
  simp only [LogRecord.intsFit, Bool.and_eq_true, List.all_eq_true] at h ⊢
  obtain ⟨hfields, hattrs⟩ := h
  refine ⟨hfields, fun a ha => ?_⟩
  have hstamp : ∀ origin hops, hops ≤ maxHops → ∀ a ∈ stampAttrs origin hops,
      a.value.intFits = true := by
    intro origin hops hle a ha
    have : maxHops = 8 := rfl
    simp only [stampAttrs, List.mem_cons, List.not_mem_nil, or_false] at ha
    rcases ha with rfl | rfl
    · rfl
    · simp only [AttrValue.intFits, decide_eq_true_eq]
      omega
  rw [stampForSend] at ha
  rcases List.mem_append.mp ha with ha | ha
  · exact hattrs a (List.mem_of_mem_filter ha)
  · refine hstamp _ _ ?_ a ha
    split
    · exact min_le_right _ _
    · exact le_rfl

theorem intsFit_stampedRecords {batch : List LogRecord} (h : ∀ r ∈ batch, r.intsFit = true) :
    ∀ r ∈ stampedRecords own minSeverity batch, r.intsFit = true := by
  intro r hr
  obtain ⟨x, hx, rfl⟩ := List.mem_map.mp hr
  exact intsFit_stampForSend (h x (List.mem_of_mem_filter hx)) own

/-- What the receiver reads in the frames that it accepts: the groups of records sent, each
record with its floats as they are read back. -/
theorem parse_frames (fl : FloatText) (own : Text) (minSeverity : UInt8)
    {batch : List LogRecord} (h : ∀ r ∈ batch, r.intsFit = true) :
    ∃ groups, groups.flatten = stampedRecords own minSeverity batch ∧
      List.Forall₂ (fun f group => f.2 = group.length ∧
        (f.1.length ≤ frameBytes ∨ f.2 = 1) ∧
        ∀ out, parseBody fl f.1 = .ok out ↔
          List.Forall₂ (fun r x => rereadRecord fl r = some x) group out)
        (encodeFrames fl own minSeverity batch).1 groups := by
  obtain ⟨groups, hframes, hflat, -⟩ := encodeFrames_groups fl own minSeverity batch
  have hfit : ∀ group ∈ groups, ∀ r ∈ group, r.intsFit = true := by
    intro group hgroup r hr
    have hsent : r ∈ stampedRecords own minSeverity batch :=
      hflat ▸ List.mem_flatten.mpr ⟨group, hgroup, hr⟩
    exact intsFit_stampedRecords h r hsent
  refine ⟨groups, hflat, ?_⟩
  generalize (encodeFrames fl own minSeverity batch).1 = frames at hframes
  clear hflat
  induction hframes with
  | nil => exact .nil
  | cons hframe _ ih =>
    obtain ⟨rfl, -, hsize⟩ := hframe
    refine .cons ⟨rfl, hsize, ?_⟩ (ih fun g hg => hfit g (List.mem_cons_of_mem _ hg))
    exact parseBody_linesOf (hfit _ List.mem_cons_self)

/-! ## When the frames round-trip -/

/-- Every float of a record is finite, and is read from the text that is written for it. -/
def FloatsKept (fl : FloatText) (r : LogRecord) : Prop :=
  ∀ a ∈ r.attributes, ∀ bits, a.value = .f64 bits →
    isFiniteBits bits = true ∧ fl.read (fl.write bits) = some bits

theorem rereadRecord_eq_self {r : LogRecord} :
    rereadRecord fl r = some r ↔ FloatsKept fl r := by
  have hself : r.attributes.mapM (rereadAttr fl) = some r.attributes ↔ FloatsKept fl r := by
    rw [Lists.mapM_eq_some_iff, List.forall₂_same]
    simp only [rereadAttr_eq_self, FloatsKept]
  rw [← hself, rereadRecord]
  cases r.attributes.mapM (rereadAttr fl) with
  | none => simp
  | some as =>
    rw [Option.map_some, Option.some.injEq, Option.some.injEq]
    exact ⟨fun heq => congrArg LogRecord.attributes heq, fun heq => by rw [heq]⟩

/-- Stamping leaves the floats of a record that is sent. -/
theorem floatsKept_stampForSend {r : LogRecord} (h : isLoop r own = false) :
    FloatsKept fl (stampForSend r own) ↔ FloatsKept fl r := by
  obtain ⟨origin, hops, hp, -, -⟩ := not_isLoop_iff.mp h
  constructor
  · intro hkept a ha bits hv
    have hprov := isProvenance_of_float (by rw [hp]; simp) ha hv
    refine hkept a (List.mem_append_left _ ?_) bits hv
    simp only [isProvenance, Bool.or_eq_false_iff] at hprov
    simp [ha, bne, hprov]
  · intro hkept a ha bits hv
    rcases List.mem_append.mp ha with ha | ha
    · exact hkept a (List.mem_of_mem_filter ha) bits hv
    · simp only [stampAttrs, List.mem_cons, List.not_mem_nil, or_false] at ha
      rcases ha with rfl | rfl <;> cases hv

/-- The receiver reads from every frame as many records as the sender counts in it, over all
frames the stamped records of the batch in order, and only a single record may take more than
a frame. -/
def FramesRoundTrip (fl : FloatText) (own : Text) (minSeverity : UInt8)
    (batch : List LogRecord) : Prop :=
  ∃ groups, groups.flatten = stampedRecords own minSeverity batch ∧
    List.Forall₂ (fun f group => parseBody fl f.1 = .ok group ∧ f.2 = group.length ∧
      (f.1.length ≤ frameBytes ∨ f.2 = 1)) (encodeFrames fl own minSeverity batch).1 groups ∧
    (encodeFrames fl own minSeverity batch).2 = groups.flatten.length

/-- The records that are sent come back as they are exactly if their floats do. -/
theorem forall₂_reread_stampedRecords {batch : List LogRecord} :
    List.Forall₂ (fun r x => rereadRecord fl r = some x) (stampedRecords own minSeverity batch)
        (stampedRecords own minSeverity batch) ↔
      ∀ r ∈ batch, skipped own minSeverity r = false → FloatsKept fl r := by
  rw [List.forall₂_same]
  have hloop : ∀ {r}, skipped own minSeverity r = false → isLoop r own = false := by
    intro r hr
    simp only [skipped, Bool.or_eq_false_iff] at hr
    exact hr.2
  constructor
  · intro h r hr hskip
    have hmem : stampForSend r own ∈ stampedRecords own minSeverity batch :=
      List.mem_map_of_mem (List.mem_filter.mpr ⟨hr, by simp [hskip]⟩)
    exact (floatsKept_stampForSend (hloop hskip)).mp (rereadRecord_eq_self.mp (h _ hmem))
  · intro h x hx
    obtain ⟨r, hr, rfl⟩ := List.mem_map.mp hx
    obtain ⟨hr, hskip⟩ := List.mem_filter.mp hr
    have hskip : skipped own minSeverity r = false := by simpa using hskip
    exact rereadRecord_eq_self.mpr ((floatsKept_stampForSend (hloop hskip)).mpr (h r hr hskip))

theorem floatsKept_of_framesRoundTrip {batch : List LogRecord}
    (hfit : ∀ r ∈ batch, r.intsFit = true) (h : FramesRoundTrip fl own minSeverity batch) :
    ∀ r ∈ batch, skipped own minSeverity r = false → FloatsKept fl r := by
  obtain ⟨outs, houts, hparsed, -⟩ := h
  obtain ⟨groups, hgroups, hframes⟩ := parse_frames fl own minSeverity hfit
  generalize (encodeFrames fl own minSeverity batch).1 = frames at hparsed hframes
  have hreread : List.Forall₂ (List.Forall₂ fun r x => rereadRecord fl r = some x) groups outs := by
    clear hgroups houts
    induction hframes generalizing outs with
    | nil =>
      cases hparsed
      exact .nil
    | cons hframe _ ih =>
      cases hparsed with
      | cons hout hrest => exact .cons ((hframe.2.2 _).mp hout.1) (ih _ hrest)
  have hflat := List.rel_flatten hreread
  rw [hgroups, houts] at hflat
  exact forall₂_reread_stampedRecords.mp hflat

theorem framesRoundTrip_of_floatsKept {batch : List LogRecord}
    (hfit : ∀ r ∈ batch, r.intsFit = true)
    (h : ∀ r ∈ batch, skipped own minSeverity r = false → FloatsKept fl r) :
    FramesRoundTrip fl own minSeverity batch := by
  obtain ⟨groups, hgroups, hframes⟩ := parse_frames fl own minSeverity hfit
  have hself := forall₂_reread_stampedRecords.mpr h
  obtain ⟨-, -, -, htotal⟩ := encodeFrames_groups fl own minSeverity batch
  refine ⟨groups, hgroups, ?_, by rw [hgroups, htotal]⟩
  rw [← hgroups, List.forall₂_same] at hself
  generalize (encodeFrames fl own minSeverity batch).1 = frames at hframes
  clear hgroups htotal
  induction hframes with
  | nil => exact .nil
  | cons hframe _ ih =>
    obtain ⟨hcount, hsize, hparse⟩ := hframe
    rw [List.flatten_cons, List.forall_mem_append] at hself
    exact .cons ⟨(hparse _).mpr (List.forall₂_same.mpr hself.1), hcount, hsize⟩ (ih hself.2)

end

/-- Frames round-trip exactly if every float on a record that is sent is finite and is read
back from its text. -/
theorem frames_round_trip_iff (fl : FloatText) (own : Text) (minSeverity : UInt8)
    (batch : List LogRecord) (hfit : ∀ r ∈ batch, r.intsFit = true) :
    FramesRoundTrip fl own minSeverity batch ↔
      ∀ r ∈ batch, skipped own minSeverity r = false → FloatsKept fl r :=
  ⟨floatsKept_of_framesRoundTrip hfit, framesRoundTrip_of_floatsKept hfit⟩

def floatRecord (bits : UInt64) : LogRecord :=
  { LogRecord.new (Uuid.nowV7 0 (List.replicate 10 0) length_zeros) 0 .INFO ['x'] with
    attributes := [⟨['v'], .f64 bits⟩] }

theorem frames_round_trip_zero :
    (∀ r ∈ [floatRecord 0], r.intsFit = true) ∧
      FramesRoundTrip zeroText ['a'] 0 [floatRecord 0] := by
  have hfit : ∀ r ∈ [floatRecord 0], r.intsFit = true := by decide
  refine ⟨hfit, (frames_round_trip_iff zeroText ['a'] 0 [floatRecord 0] hfit).mpr ?_⟩
  intro r hr _ a ha bits hv
  obtain rfl := List.mem_singleton.mp hr
  obtain rfl := List.mem_singleton.mp ha
  obtain rfl : (0 : UInt64) = bits := AttrValue.f64.inj hv
  decide

/-- A record with a NaN takes its neighbour with it: the receiver refuses the frame of both. -/
theorem frames_lost_to_nan :
    (∀ r ∈ [floatRecord 0, floatRecord 0x7FF8000000000000], r.intsFit = true) ∧
      ¬ FramesRoundTrip zeroText ['a'] 0 [floatRecord 0, floatRecord 0x7FF8000000000000] := by
  have hfit : ∀ r ∈ [floatRecord 0, floatRecord 0x7FF8000000000000], r.intsFit = true := by
    decide
  refine ⟨hfit, fun h => ?_⟩
  have hkept := floatsKept_of_framesRoundTrip hfit h (floatRecord 0x7FF8000000000000)
    (by simp) (by decide)
  have hfinite := (hkept ⟨['v'], .f64 0x7FF8000000000000⟩ (by simp [floatRecord]) _ rfl).1
  exact absurd hfinite (by decide)

end LogLess.Peer
