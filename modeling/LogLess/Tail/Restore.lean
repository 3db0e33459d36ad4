import LogLess.Tail.Lines

/-!
# What a restart finds

The checkpoint names a file by its path as text. A path that is not text, or holds a tab or
a newline, is never found in it, and the file is read from its start again. For any other
path the checkpoint restores the offset and loses the fragment held back.
-/

namespace LogLess.Tail

variable {path : Bytes} {source : Source} {id : FileId}

/-! ## The names in a checkpoint -/

/-- Every name a checkpoint restores is the encoding of text without tab and newline. -/
theorem nameable_of_checkpointEntry {text line : List Char} (hline : line ∈ Text.bufLines text)
    {entry : Bytes × Cursor} (h : checkpointEntry line = some entry) :
    nameable entry.1 = true := by
  have hnl : '\n' ∉ line := by
    -- a line is a part between newlines, without a carriage return at its end
    simp only [Text.bufLines, List.mem_append, List.mem_map, Option.mem_toList] at hline
    rcases hline with ⟨part, hpart, rfl⟩ | hlast
    · have hpart := (Text.of_mem_splitAt (List.mem_of_mem_dropLast hpart)).1
      split
      · exact fun hmem => hpart (List.mem_of_mem_dropLast hmem)
      · exact hpart
    · have hlast := List.mem_of_getLast? (Option.mem_filter_iff.mp hlast).1
      exact (Text.of_mem_splitAt hlast).1
  unfold checkpointEntry at h
  split at h
  · next name device inode offset hsplit =>
    obtain ⟨htab, hsub⟩ := @Text.of_mem_splitAt '\t' line name
      (by rw [hsplit]; exact List.mem_cons_self)
    simp only [Option.bind_eq_bind, Option.pure_def, Option.bind_eq_some_iff,
      Option.some.injEq] at h
    obtain ⟨-, -, -, -, -, -, rfl⟩ := h
    rw [nameable_iff, Utf8.lossy_encode]
    exact ⟨rfl, htab, fun hmem => hnl (hsub hmem)⟩
  · cases h

/-- A path that no checkpoint can name is in none. -/
theorem get_loadCheckpoint_of_not_nameable (hname : nameable path = false)
    (text : Option (List Char)) : Assoc.get (loadCheckpoint text) path = none := by
  have hkeys : ∀ entries cursors : List (Bytes × Cursor),
      (∀ entry ∈ entries, nameable entry.1 = true) → Assoc.get cursors path = none →
      Assoc.get (entries.foldl (fun cursors entry => Assoc.insert cursors entry.1 entry.2)
        cursors) path = none := by
    intro entries
    induction entries with
    | nil => exact fun cursors _ hnone => hnone
    | cons entry entries ih =>
      intro cursors hentries hnone
      refine ih _ (fun e he => hentries e (List.mem_cons_of_mem _ he)) ?_
      have hne : entry.1 ≠ path := by
        rintro rfl
        rw [hentries entry List.mem_cons_self] at hname
        cases hname
      rw [Assoc.get_insert, if_neg (by simpa using hne.symm)]
      exact hnone
  refine hkeys _ [] ?_ rfl
  intro entry hentry
  obtain ⟨line, hline, h⟩ := List.mem_filterMap.mp hentry
  exact nameable_of_checkpointEntry hline h

/-! ## Any path -/

/-- What a restart brings back of a cursor. -/
def Cursor.saved (cursor : Cursor) : Cursor := { cursor with fragment := [], handle := none }

variable (path source id) in
/-- The lines emitted are those up to the cursor of the path, which a checkpoint that can
name the path brings back. -/
structure World.Tails (w : World) : Prop where
  paths : w.tailer.paths = [(path, source)]
  short : w.content.length < 2 ^ 64
  cursor : Assoc.get w.tailer.cursors path = none ∧ w.lines = [] ∨
    ∃ cursor, Assoc.get w.tailer.cursors path = some cursor ∧ cursor.id = id ∧
      (cursor.handle = none ∨ cursor.handle = some id) ∧ Reads w.content cursor w.lines
  saved : nameable path = true →
    w.tailer.cursors = [] ∧ loadCheckpoint w.checkpoint = [] ∨
      ∃ cursor, w.tailer.cursors = [(path, cursor)] ∧
        loadCheckpoint w.checkpoint = [(path, cursor.saved)]

namespace World.Tails

variable {w : World}

variable (path source id) in
theorem init : (World.init path source).Tails path source id where
  paths := rfl
  short := Nat.two_pow_pos 64
  cursor := .inl ⟨rfl, rfl⟩
  saved := fun _ => .inl ⟨rfl, rfl⟩

theorem append (h : w.Tails path source id) {chunk : Bytes}
    (hok : w.ok path source (.append chunk) = true) :
    (w.step path source id (.append chunk)).Tails path source id where
  paths := h.paths
  short := by
    show (w.content ++ chunk).length < 2 ^ 64
    rw [List.length_append]
    simpa [World.ok] using hok
  cursor := by
    rcases h.cursor with hnone | ⟨cursor, hsome, hid, hhandle, hreads⟩
    · exact .inl hnone
    · exact .inr ⟨cursor, hsome, hid, hhandle, hreads.append chunk⟩
  saved := h.saved

/-- A poll reads the file to its end. -/
theorem poll (h : w.Tails path source id) (hok : w.ok path source .poll = true) :
    (w.step path source id .poll).Tails path source id ∧
      (w.step path source id .poll).lines = terminatedLines (Utf8.lossy w.content) := by
  simp only [World.ok, Bool.and_eq_true, beq_iff_eq] at hok
  obtain ⟨hclean, hstart⟩ := hok
  obtain ⟨hid, hhandle, hreads⟩ : (w.cursor path source id).id = id ∧
      ((w.cursor path source id).handle = none ∨ (w.cursor path source id).handle = some id) ∧
      Reads w.content (w.cursor path source id) w.lines := by
    rcases h.cursor with ⟨hnone, hlines⟩ | ⟨cursor, hsome, hid, hhandle, hreads⟩
    · rw [World.cursor, hnone, hlines]
      refine ⟨rfl, .inl rfl, .fresh fun hs => ?_⟩
      rw [hnone] at hstart
      simpa [hs] using hstart
    · rw [World.cursor, hsome]
      exact ⟨hid, hhandle, hreads⟩
  obtain ⟨cursor', t, out, hstep, htpaths, htcursors, hid', hhandle', hoffset, hreads'⟩ :=
    World.poll_spec h.paths hclean hid hhandle hreads
  rw [hstep]
  refine ⟨⟨htpaths.trans h.paths, h.short, .inr ⟨cursor', ?_, hid', .inr hhandle', hreads'⟩, ?_⟩,
    ?_⟩
  · rw [htcursors, Assoc.get_insert, if_pos (by simp)]
  · intro hname
    have hcursors : t.cursors = [(path, cursor')] := by
      rw [htcursors]
      rcases h.saved hname with ⟨hnone, -⟩ | ⟨c, hsome, -⟩
      · simp [hnone, Assoc.insert, Assoc.erase]
      · simp [hsome, Assoc.insert, Assoc.erase]
    exact .inr ⟨cursor', hcursors,
      loadCheckpoint_saveCheckpoint hname (by rw [hoffset]; exact h.short) hcursors⟩
  · have := hreads'.lines
    rw [hoffset, List.take_length] at this
    exact this

/-- A restart that finds an offset goes on from there, if nothing was held back; the lines
emitted are those before it. -/
theorem restart (h : w.Tails path source id) {cursor : Cursor}
    (hload : Assoc.get (loadCheckpoint w.checkpoint) path = some cursor)
    (hfragment : ∀ c ∈ Assoc.get w.tailer.cursors path, c.fragment = []) :
    (w.step path source id .restart).Tails path source id ∧ Reads w.content cursor w.lines ∧
      cursor.fragment = [] := by
  have hname : nameable path = true := by
    by_contra hname
    rw [get_loadCheckpoint_of_not_nameable (by simpa using hname)] at hload
    cases hload
  rcases h.saved hname with ⟨-, hempty⟩ | ⟨held, hcursors, hsaved⟩
  · rw [hempty] at hload
    cases hload
  · obtain rfl : held.saved = cursor := by
      rw [hsaved, get_singleton] at hload
      exact Option.some.inj hload
    rw [hcursors, get_singleton] at hfragment
    have hnil : held.fragment = [] := hfragment held rfl
    rcases h.cursor with ⟨hnone, -⟩ | ⟨c, hsome, hid, -, hreads⟩
    · rw [hcursors, get_singleton] at hnone
      cases hnone
    · obtain rfl : held = c := by
        rw [hcursors, get_singleton] at hsome
        exact Option.some.inj hsome
      have hreads' : Reads w.content held.saved w.lines :=
        ⟨hreads.le, hreads.clean, hnil.symm.trans hreads.fragment, hreads.lines⟩
      refine ⟨⟨rfl, h.short, .inr ⟨held.saved, ?_, hid, .inl rfl, hreads'⟩, fun _ => ?_⟩,
        hreads', rfl⟩
      · show Assoc.get (loadCheckpoint w.checkpoint) path = _
        rw [hsaved, get_singleton]
      · exact .inr ⟨held.saved, hsaved, hsaved⟩

/-- A restart that finds no offset starts over. -/
theorem restart_over (h : w.Tails path source id)
    (hload : Assoc.get (loadCheckpoint w.checkpoint) path = none) :
    World.Tails path source id { w.step path source id .restart with lines := [] } where
  paths := rfl
  short := h.short
  cursor := .inl ⟨hload, rfl⟩
  saved := by
    intro hname
    rcases h.saved hname with ⟨-, hempty⟩ | ⟨held, -, hsaved⟩
    · exact .inl ⟨hempty, hempty⟩
    · rw [hsaved, get_singleton] at hload
      cases hload

end World.Tails

end LogLess.Tail
