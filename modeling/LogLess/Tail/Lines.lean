import LogLess.Lib.Runs
import LogLess.Tail.Tailer

/-!
# The lines of a tailed file

One file that is only appended to, polled and the tailer restarted at any times. The lines
emitted are those of the whole content, decoded once, as long as no read ends inside a
multi-byte character and no restart happens while a fragment is held back: a fragment is
not in the checkpoint, although the offset counts its bytes.
-/

namespace LogLess.Tail

/-! ## Specification -/

/-- The non-empty lines of a text that end with a newline. -/
def terminatedLines (text : List Char) : List (List Char) :=
  (Text.splitAt '\n' text).dropLast.filter fun line => !line.isEmpty

/-- What follows the last newline. -/
def remainder (text : List Char) : List Char := (Text.splitAt '\n' text).getLastD []

theorem completeLines_eq (text : List Char) :
    completeLines text = (terminatedLines text, remainder text) := by
  rw [completeLines, terminatedLines, remainder]
  cases h : Text.rsplitOnce '\n' text with
  | none =>
    rw [Text.splitAt_of_notMem (Text.notMem_of_rsplitOnce h)]
    rfl
  | some v =>
    obtain ⟨a, b⟩ := v
    rw [Text.splitAt_of_rsplitOnce h]
    simp

theorem remainder_append (a b : List Char) :
    remainder (a ++ b) = remainder (remainder a ++ b) := by
  have hne := Text.splitAt_ne_nil '\n' (remainder a ++ b)
  rw [remainder, Text.splitAt_append_eq]
  change ((Text.splitAt '\n' a).dropLast ++ Text.splitAt '\n' (remainder a ++ b)).getLastD [] = _
  rw [List.getLastD_eq_getLast?, List.getLast?_append_of_ne_nil _ hne,
    ← List.getLastD_eq_getLast?]
  rfl

/-- Lines may be taken piece by piece, if the remainder of one piece is put before the
next. -/
theorem terminatedLines_append (a b : List Char) :
    terminatedLines (a ++ b) = terminatedLines a ++ terminatedLines (remainder a ++ b) := by
  have hne := Text.splitAt_ne_nil '\n' (remainder a ++ b)
  rw [terminatedLines, Text.splitAt_append_eq]
  change ((Text.splitAt '\n' a).dropLast ++ Text.splitAt '\n' (remainder a ++ b)).dropLast.filter _
    = _
  rw [List.dropLast_append_of_ne_nil hne, List.filter_append]
  rfl

/-! ## Histories of one file -/

/-- The content of the file, its tailer, the checkpoint on disk and the lines emitted. -/
structure World where
  content : Bytes
  tailer : Tailer
  checkpoint : Option (List Char)
  lines : List (List Char)

inductive Event where
  | append (chunk : Bytes)
  | poll
  | restart

section

variable (path : Bytes) (source : Source) (id : FileId)

def World.fs (w : World) : Fs where
  resolve := fun p => if p = path then some id else none
  content := fun i => if i = id then w.content else []

def World.step (w : World) : Event → World
  | .append chunk => { w with content := w.content ++ chunk }
  | .poll =>
    let (t, out) := pollRouted (w.fs path id) w.tailer
    { w with
      tailer := t
      checkpoint := some (saveCheckpoint t)
      lines := w.lines ++ out.map Emitted.line }
  | .restart => { w with tailer := Tailer.new [(path, source)] w.checkpoint }

/-- An empty file, and a tailer that has not polled it. -/
def World.init : World := ⟨[], Tailer.new [(path, source)] none, none, []⟩

/-- The checkpoint can name the path: it is UTF-8 without tab or newline. -/
def nameable : Bool :=
  Utf8.encode (Utf8.lossy path) == path && !(Utf8.lossy path).contains '\t'
    && !(Utf8.lossy path).contains '\n'

/-- A poll reads up to the end of a character, from the start of the file unless the source
skips what is there; a restart finds the path in the checkpoint and nothing held back. -/
def World.ok (w : World) : Event → Bool
  | .append chunk => w.content.length + chunk.length < 2 ^ 64
  | .poll =>
    Utf8.after .start w.content == .start &&
      ((Assoc.get w.tailer.cursors path).isSome || !(source.fromEnd && !w.tailer.started)
        || w.content.isEmpty)
  | .restart =>
    nameable path && ((Assoc.get w.tailer.cursors path).all fun c => c.fragment.isEmpty)

/-- All that is appended to the file. -/
def appended (es : List Event) : Bytes :=
  es.flatMap fun
    | .append chunk => chunk
    | _ => []

end

variable {path : Bytes} {source : Source} {id : FileId}

/-! ## One read -/

/-- The cursor has read the first `offset` bytes, and `lines` are the lines in them. -/
structure Reads (content : Bytes) (cursor : Cursor) (lines : List (List Char)) : Prop where
  le : cursor.offset ≤ content.length
  clean : Utf8.after .start (content.take cursor.offset) = .start
  fragment : cursor.fragment = remainder (Utf8.lossy (content.take cursor.offset))
  lines : lines = terminatedLines (Utf8.lossy (content.take cursor.offset))

theorem Reads.append {content : Bytes} {cursor : Cursor} {lines : List (List Char)}
    (h : Reads content cursor lines) (chunk : Bytes) : Reads (content ++ chunk) cursor lines := by
  have htake : (content ++ chunk).take cursor.offset = content.take cursor.offset :=
    List.take_append_of_le_length h.le
  refine ⟨?_, ?_, ?_, ?_⟩
  · rw [List.length_append]
    exact Nat.le_add_right_of_le h.le
  · rw [htake]
    exact h.clean
  · rw [htake]
    exact h.fragment
  · rw [htake]
    exact h.lines

/-- A read takes the rest of the file, and its lines follow those read before. -/
theorem Reads.drainHandle {fs : Fs} {cursor : Cursor} {lines : List (List Char)}
    (h : Reads (fs.content id) cursor lines) (hhandle : cursor.handle = some id)
    (hclean : Utf8.after .start (fs.content id) = .start) (stats : TailStats) :
    ∃ cursor' stats' out, Tail.drainHandle fs cursor stats = (cursor', stats', out) ∧
      Reads (fs.content id) cursor' (lines ++ out) ∧ cursor'.offset = (fs.content id).length ∧
      cursor'.handle = cursor.handle ∧ cursor'.id = cursor.id := by
  simp only [Tail.drainHandle, hhandle, completeLines_eq]
  by_cases hle : (fs.content id).length ≤ cursor.offset
  · -- nothing new
    refine ⟨cursor, stats, [], by simp [hle], ?_, Nat.le_antisymm h.le hle, hhandle, rfl⟩
    rw [List.append_nil]
    exact h
  · have hsplit : Utf8.lossy (fs.content id)
        = Utf8.lossy ((fs.content id).take cursor.offset)
          ++ Utf8.lossy ((fs.content id).drop cursor.offset) := by
      rw [← Utf8.lossy_append h.clean, List.take_append_drop]
    have hoffset : cursor.offset + ((fs.content id).drop cursor.offset).length
        = (fs.content id).length := by
      rw [List.length_drop]
      omega
    refine ⟨_, _, _, if_neg hle, ?_, hoffset, rfl, rfl⟩
    refine ⟨hoffset.le, ?_, ?_, ?_⟩
    · rw [hoffset, List.take_length]
      exact hclean
    · rw [hoffset, List.take_length, hsplit,
        remainder_append (Utf8.lossy ((fs.content id).take cursor.offset)), ← h.fragment]
    · rw [hoffset, List.take_length, hsplit,
        terminatedLines_append (Utf8.lossy ((fs.content id).take cursor.offset)), ← h.fragment,
        ← h.lines]

/-! ## The checkpoint -/

theorem nameable_iff : nameable path = true ↔
    Utf8.encode (Utf8.lossy path) = path ∧ '\t' ∉ Utf8.lossy path ∧ '\n' ∉ Utf8.lossy path := by
  simp [nameable, and_assoc]

theorem notMem_ofNat {c : Char} (hc : c.isDigit = false) (n : ℕ) : c ∉ Decimal.ofNat n := by
  intro hmem
  rw [Decimal.isDigit_of_mem_ofNat hmem] at hc
  cases hc

/-- A checkpoint brings back the cursor without its fragment and its handle. -/
theorem loadCheckpoint_saveCheckpoint (hname : nameable path = true) {cursor : Cursor}
    (hoffset : cursor.offset < 2 ^ 64) {t : Tailer} (ht : t.cursors = [(path, cursor)]) :
    loadCheckpoint (some (saveCheckpoint t))
      = [(path, { cursor with fragment := [], handle := none })] := by
  obtain ⟨hutf8, htab, hnl⟩ := nameable_iff.mp hname
  have htabs : ∀ n, '\t' ∉ Decimal.ofNat n := notMem_ofNat (by decide)
  have hnls : ∀ n, '\n' ∉ Decimal.ofNat n := notMem_ofNat (by decide)
  let line := Utf8.lossy path ++ '\t' :: (Decimal.ofNat cursor.id.device.toNat
    ++ '\t' :: (Decimal.ofNat cursor.id.inode.toNat ++ '\t' :: Decimal.ofNat cursor.offset))
  have hsave : saveCheckpoint t = line ++ '\n' :: [] := by
    simp [saveCheckpoint, ht, checkpointLine, htab, hnl, line]
  have hline : '\n' ∉ line := by
    simp [line, hnl, hnls]
  have hcr : line.getLast? ≠ some '\r' := by
    have hne : Decimal.ofNat cursor.offset ≠ [] := Nat.toDigits_ne_nil
    intro hlast
    have hmem : '\r' ∈ Decimal.ofNat cursor.offset := by
      have : line.getLast? = (Decimal.ofNat cursor.offset).getLast? := by
        simp only [line]
        rw [List.getLast?_append_of_ne_nil _ (by simp), List.getLast?_cons_of_ne_nil (by simp),
          List.getLast?_append_of_ne_nil _ (by simp), List.getLast?_cons_of_ne_nil (by simp),
          List.getLast?_append_of_ne_nil _ (by simp), List.getLast?_cons_of_ne_nil hne]
      exact List.mem_of_getLast? (this ▸ hlast)
    exact notMem_ofNat (by decide) _ hmem
  have hlines : Text.bufLines (line ++ '\n' :: []) = [line] := by
    simp [Text.bufLines, Text.splitAt_append hline, Text.splitAt, hcr]
  have hentry : checkpointEntry line
      = some (path, { cursor with fragment := [], handle := none }) := by
    simp only [checkpointEntry, line, Text.splitAt_append htab, Text.splitAt_append (htabs _),
      Text.splitAt_of_notMem (htabs _), Decimal.parse_ofNat hoffset,
      Decimal.parse_ofNat cursor.id.device.toNat_lt, Decimal.parse_ofNat cursor.id.inode.toNat_lt,
      Option.bind_eq_bind, Option.bind_some, Option.pure_def, hutf8, UInt64.ofNat_toNat]
  rw [loadCheckpoint, Option.getD_some, hsave, hlines]
  simp [hentry, Assoc.insert, Assoc.erase]

/-! ## Every history -/

variable (path source id) in
/-- Before the first poll nothing is known of the file; after it one cursor is, which the
checkpoint brings back. -/
def World.Inv (w : World) : Prop :=
  w.tailer.paths = [(path, source)] ∧ w.content.length < 2 ^ 64 ∧
    ((w.tailer.cursors = [] ∧ w.checkpoint = none ∧ w.lines = []) ∨
      ∃ cursor, w.tailer.cursors = [(path, cursor)] ∧ cursor.id = id ∧
        (cursor.handle = none ∨ cursor.handle = some id) ∧ Reads w.content cursor w.lines ∧
        (nameable path = true → loadCheckpoint w.checkpoint
          = [(path, { cursor with fragment := [], handle := none })]))

theorem get_singleton (cursor : Cursor) : Assoc.get [(path, cursor)] path = some cursor := by
  simp [Assoc.get]

/-- A poll of a file whose cursor is neither rotated away nor past the end. -/
theorem pollOne_eq {fs : Fs} {t : Tailer} {startAtEnd : Bool} (hfs : fs.resolve path = some id)
    {cursor : Cursor} (hcursor : (Assoc.get t.cursors path).getD
      ⟨id, if startAtEnd then (fs.content id).length else 0, [], none⟩ = cursor)
    (hid : cursor.id = id) (hhandle : cursor.handle = none ∨ cursor.handle = some id)
    (hle : cursor.offset ≤ (fs.content id).length) :
    pollOne fs t path startAtEnd =
      let (cursor', stats, lines) := drainHandle fs { cursor with handle := some id } t.stats
      ({ t with cursors := Assoc.insert t.cursors path cursor', stats := stats }, lines) := by
  obtain ⟨cid, offset, fragment, handle⟩ := cursor
  simp only at hid hhandle hle
  subst hid
  rw [pollOne, hfs]
  -- with the handle opened or already open, the cursor is the same
  rcases hhandle with rfl | rfl
  · simp only [hcursor, Option.isNone_none, if_true, ne_eq, not_true_eq_false, if_false,
      Nat.not_lt.mpr hle, List.nil_append]
  · simp only [hcursor, Option.isNone_some, Bool.false_eq_true, ne_eq, not_true_eq_false, if_false,
      Nat.not_lt.mpr hle, List.nil_append]

/-- The cursor of a file that no poll has seen stands at its start, unless the source skips
what is there. -/
theorem Reads.fresh {content : Bytes} {startAtEnd : Bool}
    (h : startAtEnd = true → content = []) :
    Reads content ⟨id, if startAtEnd then content.length else 0, [], none⟩ [] := by
  have hoff : (if startAtEnd = true then content.length else 0) = 0 := by
    by_cases hs : startAtEnd = true
    · simp [h hs]
    · simp [hs]
  simp only [hoff]
  exact ⟨Nat.zero_le _, rfl, rfl, rfl⟩

/-- The cursor a poll starts from. -/
def World.cursor (w : World) (path : Bytes) (source : Source) (id : FileId) : Cursor :=
  (Assoc.get w.tailer.cursors path).getD
    ⟨id, if source.fromEnd && !w.tailer.started then w.content.length else 0, [], none⟩

/-- One poll of a world whose tailer has the one path: the cursor it starts from is read on
to the end of the file. -/
theorem World.poll_spec {w : World} (hpaths : w.tailer.paths = [(path, source)])
    (hclean : Utf8.after .start w.content = .start)
    (hid : (w.cursor path source id).id = id)
    (hhandle : (w.cursor path source id).handle = none
      ∨ (w.cursor path source id).handle = some id)
    (hreads : Reads w.content (w.cursor path source id) w.lines) :
    ∃ cursor' t out, w.step path source id .poll
        = { w with tailer := t, checkpoint := some (saveCheckpoint t), lines := w.lines ++ out } ∧
      t.paths = w.tailer.paths ∧ t.cursors = Assoc.insert w.tailer.cursors path cursor' ∧
      cursor'.id = id ∧ cursor'.handle = some id ∧ cursor'.offset = w.content.length ∧
      Reads w.content cursor' (w.lines ++ out) := by
  have hcontent : (w.fs path id).content id = w.content := by simp [World.fs]
  have hresolve : (w.fs path id).resolve path = some id := by simp [World.fs]
  set startAtEnd := source.fromEnd && !w.tailer.started with hsae
  set cursor := w.cursor path source id with hcursor
  have hopened : Reads ((w.fs path id).content id) { cursor with handle := some id } w.lines := by
    rw [hcontent]
    exact ⟨hreads.le, hreads.clean, hreads.fragment, hreads.lines⟩
  obtain ⟨cursor', stats', out, hdrain, hreads', hoffset, hhandle', hid'⟩ :=
    hopened.drainHandle rfl (by rw [hcontent]; exact hclean) w.tailer.stats
  have hone : pollOne (w.fs path id) { w.tailer with started := true } path startAtEnd
      = ({ w.tailer with started := true
                         cursors := Assoc.insert w.tailer.cursors path cursor'
                         stats := stats' }, out) := by
    have hcursor' : (Assoc.get w.tailer.cursors path).getD
        ⟨id, if startAtEnd then ((w.fs path id).content id).length else 0, [], none⟩ = cursor := by
      rw [hcontent]
      exact hcursor.symm
    have hle : cursor.offset ≤ ((w.fs path id).content id).length := by
      rw [hcontent]
      exact hreads.le
    have hpoll := pollOne_eq (t := { w.tailer with started := true }) hresolve hcursor' hid hhandle
      hle
    simp only [hpoll, hdrain]
  rw [hcontent] at hreads' hoffset
  refine ⟨cursor', { w.tailer with started := true
                                   cursors := Assoc.insert w.tailer.cursors path cursor'
                                   stats := stats' }, out, ?_, rfl, rfl, hid'.trans hid, hhandle',
    hoffset, hreads'⟩
  simp only [hpaths] at hone
  simp only [World.step, pollRouted, hpaths, List.foldl_cons, List.foldl_nil, ← hsae, hone,
    List.nil_append, List.map_map]
  simp [Function.comp_def]

theorem World.Inv.poll {w : World} (h : w.Inv path source id)
    (hok : w.ok path source .poll = true) :
    (w.step path source id .poll).Inv path source id ∧
      (w.step path source id .poll).lines = terminatedLines (Utf8.lossy w.content) := by
  obtain ⟨hpaths, hshort, hstate⟩ := h
  simp only [World.ok, Bool.and_eq_true, beq_iff_eq] at hok
  obtain ⟨hclean, hstart⟩ := hok
  -- the cursor the poll starts from has read some of the file
  obtain ⟨hid, hhandle, hreads⟩ : (w.cursor path source id).id = id ∧
      ((w.cursor path source id).handle = none ∨ (w.cursor path source id).handle = some id) ∧
      Reads w.content (w.cursor path source id) w.lines := by
    rcases hstate with ⟨hnone, -, hlines⟩ | ⟨cursor, hsome, hid, hhandle, hreads, -⟩
    · rw [World.cursor, hnone, hlines]
      refine ⟨rfl, .inl rfl, .fresh fun hs => ?_⟩
      rw [hnone] at hstart
      simpa [hs] using hstart
    · rw [World.cursor, hsome, get_singleton]
      exact ⟨hid, hhandle, hreads⟩
  obtain ⟨cursor', t, out, hstep, htpaths, htcursors, hid', hhandle', hoffset, hreads'⟩ :=
    World.poll_spec hpaths hclean hid hhandle hreads
  have hinsert : t.cursors = [(path, cursor')] := by
    rw [htcursors]
    rcases hstate with ⟨hnone, -⟩ | ⟨c, hsome, -⟩
    · simp [hnone, Assoc.insert, Assoc.erase]
    · simp [hsome, Assoc.insert, Assoc.erase]
  rw [hstep]
  refine ⟨⟨htpaths.trans hpaths, hshort, .inr ⟨cursor', hinsert, hid', .inr hhandle', hreads', ?_⟩⟩,
    ?_⟩
  · intro hname
    exact loadCheckpoint_saveCheckpoint hname (by rw [hoffset]; exact hshort) hinsert
  · have := hreads'.lines
    rw [hoffset, List.take_length] at this
    exact this

theorem World.inv_step (w : World) (e : Event) (h : w.Inv path source id)
    (hok : w.ok path source e = true) : (w.step path source id e).Inv path source id := by
  cases e with
  | append chunk =>
    obtain ⟨hpaths, -, hstate⟩ := h
    refine ⟨hpaths, ?_, ?_⟩
    · show (w.content ++ chunk).length < 2 ^ 64
      rw [List.length_append]
      simpa [World.ok] using hok
    · rcases hstate with hnone | ⟨cursor, hsome, hid, hhandle, hreads, hload⟩
      · exact .inl hnone
      · exact .inr ⟨cursor, hsome, hid, hhandle, hreads.append chunk, hload⟩
  | poll => exact (h.poll hok).1
  | restart =>
    obtain ⟨hpaths, hshort, hstate⟩ := h
    simp only [World.ok, Bool.and_eq_true] at hok
    obtain ⟨hname, hfragment⟩ := hok
    refine ⟨rfl, hshort, ?_⟩
    rcases hstate with ⟨hnone, hcheck, hlines⟩ | ⟨cursor, hsome, hid, hhandle, hreads, hload⟩
    · refine .inl ⟨?_, hcheck, hlines⟩
      show loadCheckpoint w.checkpoint = []
      rw [hcheck]
      rfl
    · -- nothing was held back, so the saved cursor stands for the same text
      have hempty : cursor.fragment = [] := by
        rw [hsome, get_singleton] at hfragment
        simpa using hfragment
      refine .inr ⟨{ cursor with fragment := [], handle := none }, hload hname, hid, .inl rfl,
        ⟨hreads.le, hreads.clean, ?_, hreads.lines⟩, hload⟩
      rw [← hempty]
      exact hreads.fragment

variable (path source id) in
theorem World.inv_init : (World.init path source).Inv path source id :=
  ⟨rfl, Nat.two_pow_pos 64, .inl ⟨rfl, rfl, rfl⟩⟩

theorem content_run (w : World) (es : List Event) :
    (Runs.run (World.step path source id) w es).content = w.content ++ appended es := by
  induction es generalizing w with
  | nil => simp [appended]
  | cons e es ih =>
    rw [Runs.run_cons, ih]
    cases e <;> simp [World.step, appended]

variable (path source id) in
/-- Whatever the chunks, polls and restarts: after a poll the lines emitted are the
non-empty lines of all that was appended. -/
theorem lines_eq_terminatedLines (es : List Event)
    (hok : Runs.Meets (World.step path source id) (fun w e => w.ok path source e = true)
      (World.init path source) (es ++ [.poll])) :
    (Runs.run (World.step path source id) (World.init path source) (es ++ [.poll])).lines
      = terminatedLines (Utf8.lossy (appended es)) := by
  have hinv : (Runs.run (World.step path source id) (World.init path source) es).Inv
      path source id :=
    hok.append_left.invariant World.inv_step (World.inv_init path source id)
  have hpoll := hok.append_right.1
  rw [Runs.run_concat, (hinv.poll hpoll).2, content_run]
  rfl

/-- `/a`, read from the start. -/
def examplePath : Bytes := [47, 97]

def fromStart : Source := ⟨false, none, none⟩

/-- `é` cut by an append but by no read, a fragment held over a poll, and a restart. -/
theorem lines_eq_terminatedLines_restarted :
    (Runs.run (World.step examplePath fromStart ⟨1, 2⟩) (World.init examplePath fromStart)
      ([.append [0x61, 0xC3], .append [0xA9], .poll, .append [0x62, 10, 10], .poll, .restart,
        .append [0x63, 10]] ++ [.poll])).lines
      = [['a', 'é', 'b'], ['c']] := by
  rw [lines_eq_terminatedLines examplePath fromStart ⟨1, 2⟩ _ (by decide +kernel)]
  decide +kernel

/-- A restart drops the fragment that was held back, and a read that ends inside a
character spoils it. -/
theorem lines_depend_on_timing :
    (Runs.run (World.step examplePath fromStart ⟨1, 2⟩) (World.init examplePath fromStart)
      [.append [0x61], .poll, .restart, .append [0x62, 10], .poll]).lines = [['b']] ∧
    (Runs.run (World.step examplePath fromStart ⟨1, 2⟩) (World.init examplePath fromStart)
      [.append [0xC3], .poll, .append [0xA9, 10], .poll]).lines
      = [[Utf8.replacement, Utf8.replacement]] ∧
    terminatedLines (Utf8.lossy [0x61, 0x62, 10]) = [['a', 'b']] ∧
    terminatedLines (Utf8.lossy [0xC3, 0xA9, 10]) = [['é']] := by
  decide +kernel

end LogLess.Tail
