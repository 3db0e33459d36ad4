import LogLess.S3.Walk

/-!
# What a walk pushes

Without marker and limit, the walk pushes one line for every file that is listed and one for
every directory that is rolled up: `candidates`, each with the key it comes from. The walk pushes
these (`walk_eq`); skipping a directory before the marker changes nothing, because `push` would
ignore its lines. Their keys are strictly increasing.
-/

namespace LogLess.S3

/-! ## Loops -/

theorem loopWhile_append {σ ε : Type} (body : σ → ε → σ × Bool) (s : σ) (es fs : List ε) :
    loopWhile body s (es ++ fs) = match loopWhile body s es with
      | (s', true) => loopWhile body s' fs
      | (s', false) => (s', false) := by
  induction es generalizing s with
  | nil => rfl
  | cons e es ih =>
    rw [List.cons_append, loopWhile, loopWhile]
    cases h : body s e with
    | mk s' go =>
      cases go with
      | true => exact ih s'
      | false => rfl

/-- A loop whose body is a loop of its own. -/
theorem loopWhile_flatMap {σ ε ι : Type} {body : σ → ε → σ × Bool} {inner : σ → ι → σ × Bool}
    {f : ε → List ι} {es : List ε} (h : ∀ e ∈ es, ∀ s, body s e = loopWhile inner s (f e)) (s : σ) :
    loopWhile body s es = loopWhile inner s (es.flatMap f) := by
  induction es generalizing s with
  | nil => rfl
  | cons e es ih =>
    rw [List.flatMap_cons, loopWhile_append, loopWhile, h e List.mem_cons_self]
    cases loopWhile inner s (f e) with
    | mk s' go =>
      cases go with
      | true => exact ih (fun e he => h e (List.mem_cons_of_mem _ he)) s'
      | false => rfl

theorem loopWhile_singleton {σ ε : Type} (body : σ → ε → σ × Bool) (s : σ) (e : ε) :
    loopWhile body s [e] = body s e := by
  rw [loopWhile]
  cases body s e with
  | mk s' go => cases go <;> rfl

/-! ## Candidates -/

section

variable (p : ListParams) (t : Tree) (scope : ReadScope)

/-- What a key is listed as. -/
def rollUp (key : Text) : Text := (commonPrefix p key).getD key

/-- The candidates of an entry, with those below it if it is a directory. -/
def entryCandidates (dir : Path) (keyPrefix : Text) (e : Entry) (below : List (Text × ListUnit)) :
    List (Text × ListUnit) :=
  let key := keyPrefix ++ e.sortKey
  if e.isDir then
    if ¬ (p.pfx.isPrefixOf key || key.isPrefixOf p.pfx) then []
    else
      match (if p.pfx.isPrefixOf key then commonPrefix p key else none) with
      | some cp => [(key, .commonPrefix cp)]
      | none => below
  else
    match commonPrefix p key with
    | some cp => [(key, .commonPrefix cp)]
    | none =>
      match t.kind? (dir ++ [e.name]) with
      | some (.file f) => [(key, .ofFile key f)]
      | _ => []

def candidates : ℕ → Path → Text → List (Text × ListUnit)
  | 0, _, _ => []
  | n + 1, dir, keyPrefix =>
    (sortedEntries p t scope dir keyPrefix).flatMap fun e =>
      entryCandidates p t dir keyPrefix e (candidates n (dir ++ [e.name]) (keyPrefix ++ e.sortKey))

variable {p t scope}

theorem commonPrefix_isPrefix {key cp : Text} (h : commonPrefix p key = some cp) : cp <+: key := by
  obtain ⟨d, -, hcut⟩ := Option.bind_eq_some_iff.mp h
  exact Rollup.isPrefix_of_cut hcut

theorem rollUp_isPrefix (key : Text) : rollUp p key <+: key := by
  unfold rollUp
  cases h : commonPrefix p key with
  | none => exact List.prefix_refl key
  | some cp => exact commonPrefix_isPrefix h

theorem rollUp_le (key : Text) : rollUp p key ≤ key := Rollup.le_of_isPrefix (rollUp_isPrefix key)

/-- An entry that is listed. -/
theorem mem_sortedEntries {dir : Path} {keyPrefix : Text} {e : Entry} :
    e ∈ sortedEntries p t scope dir keyPrefix ↔
      ∃ x ∈ t.readDir dir, listed p scope keyPrefix x = some e := by
  rw [sortedEntries, (List.perm_insertionSort _ _).mem_iff, List.mem_filterMap]

theorem listed_eq_some {keyPrefix name : Text} {kind : Kind} {e : Entry} :
    listed p scope keyPrefix (name, kind) = some e ↔ name.head? ≠ some '.' ∧
      ((kind = .dir ∧ scope.reaches (keyPrefix ++ name ++ ['/']) = true ∧
          e = ⟨name ++ ['/'], name, true⟩) ∨
        ∃ f, kind = .file f ∧ servable (keyPrefix ++ name) = true ∧ p.pfx <+: keyPrefix ++ name ∧
          scope.allows (keyPrefix ++ name) = true ∧ e = ⟨name, name, false⟩) := by
  by_cases hdot : name.head? = some '.'
  · simp [listed, hdot]
  · cases kind with
    | dir => simp [listed, hdot, @eq_comm _ e]
    | file f => simp [listed, hdot, and_assoc, @eq_comm _ e]
    | other => simp [listed, hdot]

/-- A candidate of an entry is rolled up at its key, is the file, or is below the directory. -/
theorem mem_entryCandidates {dir : Path} {keyPrefix : Text} {e : Entry}
    {below : List (Text × ListUnit)} {x : Text × ListUnit} :
    x ∈ entryCandidates p t dir keyPrefix e below ↔
      ((e.isDir = true → p.pfx <+: keyPrefix ++ e.sortKey) ∧
        ∃ cp, commonPrefix p (keyPrefix ++ e.sortKey) = some cp ∧
          x = (keyPrefix ++ e.sortKey, .commonPrefix cp)) ∨
      (e.isDir = false ∧ commonPrefix p (keyPrefix ++ e.sortKey) = none ∧
        ∃ f, t.kind? (dir ++ [e.name]) = some (.file f) ∧
          x = (keyPrefix ++ e.sortKey, .ofFile (keyPrefix ++ e.sortKey) f)) ∨
      (e.isDir = true ∧ (p.pfx <+: keyPrefix ++ e.sortKey ∨ keyPrefix ++ e.sortKey <+: p.pfx) ∧
        (p.pfx <+: keyPrefix ++ e.sortKey → commonPrefix p (keyPrefix ++ e.sortKey) = none) ∧
        x ∈ below) := by
  unfold entryCandidates
  simp only [← List.isPrefixOf_iff_prefix]
  generalize keyPrefix ++ e.sortKey = key
  cases hdir : e.isDir with
  | true =>
    cases hpfx : p.pfx.isPrefixOf key with
    | true => cases hcp : commonPrefix p key <;> simp
    | false => cases hkey : key.isPrefixOf p.pfx <;> simp
  | false =>
    cases hcp : commonPrefix p key with
    | some cp => simp
    | none => rcases t.kind? (dir ++ [e.name]) with _ | f | _ | _ <;> simp

/-- The line of a candidate says what its key rolls up to. -/
structure Candidate (p : ListParams) (keyPrefix : Text) (x : Text × ListUnit) : Prop where
  below : keyPrefix <+: x.1
  pfx : p.pfx <+: x.1
  text : x.2.text = rollUp p x.1
  rolled : x.2 = .commonPrefix (rollUp p x.1) ↔ (commonPrefix p x.1).isSome = true

theorem candidate_of_mem {n : ℕ} {dir : Path} {keyPrefix : Text} {x : Text × ListUnit}
    (hx : x ∈ candidates p t scope n dir keyPrefix) : Candidate p keyPrefix x := by
  induction n generalizing dir keyPrefix with
  | zero => cases hx
  | succ n ih =>
    obtain ⟨e, he, hx⟩ := List.mem_flatMap.mp hx
    have hbelow : keyPrefix <+: keyPrefix ++ e.sortKey := List.prefix_append _ _
    have hfile : e.isDir = false → p.pfx <+: keyPrefix ++ e.sortKey := by
      obtain ⟨⟨name, kind⟩, -, hlisted⟩ := mem_sortedEntries.mp he
      obtain ⟨-, ⟨-, -, rfl⟩ | ⟨f, -, -, hpfx, -, rfl⟩⟩ := listed_eq_some.mp hlisted
      · exact fun h => absurd h (by simp)
      · exact fun _ => hpfx
    rcases mem_entryCandidates.mp hx with
      ⟨hdir, cp, hcp, rfl⟩ | ⟨hdir, hcp, f, -, rfl⟩ | ⟨-, -, -, hx⟩
    · have hpfx : p.pfx <+: keyPrefix ++ e.sortKey := by
        cases h : e.isDir with
        | true => exact hdir h
        | false => exact hfile h
      refine ⟨hbelow, hpfx, ?_, ?_⟩
      · simp [ListUnit.text, rollUp, hcp]
      · simp [rollUp, hcp]
    · refine ⟨hbelow, hfile hdir, ?_, ?_⟩
      · simp [ListUnit.ofFile, ListUnit.text, rollUp, hcp]
      · simp [ListUnit.ofFile, hcp]
    · have h := ih hx
      exact ⟨hbelow.trans h.below, h.pfx, h.text, h.rolled⟩

/-- What comes from an entry starts with its key. -/
theorem isPrefix_of_mem_entry {n : ℕ} {dir : Path} {keyPrefix : Text} {e : Entry}
    {x : Text × ListUnit} (hx : x ∈ entryCandidates p t dir keyPrefix e
      (candidates p t scope n (dir ++ [e.name]) (keyPrefix ++ e.sortKey))) :
    keyPrefix ++ e.sortKey <+: x.1 := by
  rcases mem_entryCandidates.mp hx with ⟨-, cp, -, rfl⟩ | ⟨-, -, f, -, rfl⟩ | ⟨-, -, -, hx⟩
  · exact List.prefix_refl _
  · exact List.prefix_refl _
  · exact (candidate_of_mem hx).below

theorem eq_of_mem_entry {dir : Path} {keyPrefix : Text} {e : Entry}
    {below : List (Text × ListUnit)} {x : Text × ListUnit} (hdir : e.isDir = false)
    (hx : x ∈ entryCandidates p t dir keyPrefix e below) : x.1 = keyPrefix ++ e.sortKey := by
  rcases mem_entryCandidates.mp hx with ⟨-, cp, -, rfl⟩ | ⟨-, -, f, -, rfl⟩ | ⟨h, -, -, -⟩
  · rfl
  · rfl
  · exact absurd (h.symm.trans hdir) (by simp)

/-! ## The walk -/

theorem push_of_le {w : Walker} {unit : ListUnit} {m : Text} (hm : p.marker = some m)
    (h : unit.text ≤ m) : w.push p unit = (w, true) := by
  rw [Walker.push, if_pos]
  simp [hm, h]

theorem pushAll_of_le {w : Walker} {units : List ListUnit} {m : Text} (hm : p.marker = some m)
    (h : ∀ u ∈ units, u.text ≤ m) : loopWhile (Walker.push p) w units = (w, true) := by
  induction units with
  | nil => rfl
  | cons u us ih =>
    rw [loopWhile, push_of_le hm (h u List.mem_cons_self)]
    exact ih fun v hv => h v (List.mem_cons_of_mem _ hv)

theorem walk_eq (n : ℕ) (dir : Path) (keyPrefix : Text) (w : Walker) :
    walk p t scope n dir keyPrefix w
      = loopWhile (Walker.push p) w ((candidates p t scope n dir keyPrefix).map Prod.snd) := by
  induction n generalizing dir keyPrefix w with
  | zero => rfl
  | succ n ih =>
    rw [walk, candidates, List.map_flatMap]
    refine loopWhile_flatMap (fun e he w => ?_) w
    -- `push` ignores every line that comes from a key at or before the marker
    have hskip : ∀ {m : Text}, p.marker = some m →
        (∀ x ∈ entryCandidates p t dir keyPrefix e
          (candidates p t scope n (dir ++ [e.name]) (keyPrefix ++ e.sortKey)), x.1 ≤ m) →
        loopWhile (Walker.push p) w ((entryCandidates p t dir keyPrefix e
          (candidates p t scope n (dir ++ [e.name]) (keyPrefix ++ e.sortKey))).map Prod.snd)
          = (w, true) := by
      intro m hm hle
      refine pushAll_of_le hm fun u hu => ?_
      obtain ⟨x, hx, rfl⟩ := List.mem_map.mp hu
      have hmem : x ∈ candidates p t scope (n + 1) dir keyPrefix :=
        List.mem_flatMap.mpr ⟨e, he, hx⟩
      rw [(candidate_of_mem hmem).text]
      exact (rollUp_le x.1).trans (hle x hx)
    simp only
    by_cases hdir : e.isDir = true
    · rw [if_pos hdir]
      by_cases hcompat : ¬ (p.pfx.isPrefixOf (keyPrefix ++ e.sortKey)
          || (keyPrefix ++ e.sortKey).isPrefixOf p.pfx) = true
      · rw [if_pos hcompat, entryCandidates, if_pos hdir, if_pos hcompat]
        rfl
      · rw [if_neg hcompat]
        by_cases hbefore : beforeMarker p (keyPrefix ++ e.sortKey) = true
        · rw [if_pos hbefore]
          obtain ⟨m, hm, hlt, hnot⟩ : ∃ m, p.marker = some m ∧ keyPrefix ++ e.sortKey < m ∧
              ¬ keyPrefix ++ e.sortKey <+: m := by
            cases hm : p.marker with
            | none => simp [beforeMarker, hm] at hbefore
            | some m =>
              refine ⟨m, rfl, ?_⟩
              simpa [beforeMarker, hm, ← List.isPrefixOf_iff_prefix] using hbefore
          rw [hskip hm]
          intro x hx
          exact le_of_lt (Rollup.lt_of_lt_of_not_isPrefix (isPrefix_of_mem_entry hx) hlt hnot)
        · rw [if_neg hbefore, entryCandidates, if_pos hdir, if_neg hcompat]
          generalize (if p.pfx.isPrefixOf (keyPrefix ++ e.sortKey) = true then
            commonPrefix p (keyPrefix ++ e.sortKey) else none) = rolled
          cases rolled with
          | some cp => exact (loopWhile_singleton (Walker.push p) w (.commonPrefix cp)).symm
          | none => exact ih _ _ _
    · rw [if_neg hdir]
      by_cases hle : (p.marker.any fun m => decide (keyPrefix ++ e.sortKey ≤ m)) = true
      · rw [if_pos hle]
        obtain ⟨m, hm, hle⟩ : ∃ m, p.marker = some m ∧ keyPrefix ++ e.sortKey ≤ m := by
          cases hm : p.marker with
          | none => simp [hm] at hle
          | some m => exact ⟨m, rfl, by simpa [hm] using hle⟩
        rw [hskip hm]
        intro x hx
        rw [eq_of_mem_entry (by simpa using hdir) hx]
        exact hle
      · rw [if_neg hle, entryCandidates, if_neg hdir]
        cases commonPrefix p (keyPrefix ++ e.sortKey) with
        | some cp => exact (loopWhile_singleton (Walker.push p) w (.commonPrefix cp)).symm
        | none =>
          simp only
          rcases t.kind? (dir ++ [e.name]) with _ | f | _ | _
          · rfl
          · exact (loopWhile_singleton (Walker.push p) w (.ofFile _ f)).symm
          · rfl
          · rfl

/-! ## The order of the candidates -/

/-- A name with a slash after it starts no other name. -/
theorem eq_of_slash_isPrefix {a b s : Text} (hb : '/' ∉ b) (hs : s = b ∨ s = b ++ ['/'])
    (h : a ++ ['/'] <+: s) : s = a ++ ['/'] := by
  obtain ⟨rest, hrest⟩ := h
  rcases hs with rfl | rfl
  · exact absurd (hrest ▸ by simp) hb
  · induction rest using List.reverseRecOn with
    | nil => rw [← hrest, List.append_nil]
    | append_singleton rest c _ =>
      rw [← List.append_assoc] at hrest
      have hinit := (List.append_inj' hrest rfl).1
      exact absurd (hinit ▸ by simp) hb

theorem sortKey_of_mem {dir : Path} {keyPrefix : Text} {e : Entry}
    (he : e ∈ sortedEntries p t scope dir keyPrefix) :
    validName e.name ∧ e.sortKey = if e.isDir then e.name ++ ['/'] else e.name := by
  obtain ⟨⟨name, kind⟩, hx, hlisted⟩ := mem_sortedEntries.mp he
  have hvalid : validName name :=
    Tree.validName_of_mem (Tree.mem_readDir.mp hx) name (by simp)
  obtain ⟨-, ⟨-, -, rfl⟩ | ⟨f, -, -, -, -, rfl⟩⟩ := listed_eq_some.mp hlisted
  · exact ⟨hvalid, rfl⟩
  · exact ⟨hvalid, rfl⟩

theorem pairwise_sortedEntries (p : ListParams) (t : Tree) (scope : ReadScope) (dir : Path)
    (keyPrefix : Text) :
    (sortedEntries p t scope dir keyPrefix).Pairwise fun a b => a.sortKey < b.sortKey := by
  have htotal : Std.Total fun a b : Entry => a.sortKey ≤ b.sortKey := ⟨fun a b => le_total _ _⟩
  have htrans : IsTrans Entry fun a b : Entry => a.sortKey ≤ b.sortKey :=
    ⟨fun _ _ _ h h' => h.trans h'⟩
  have hle : (sortedEntries p t scope dir keyPrefix).Pairwise fun a b => a.sortKey ≤ b.sortKey :=
    List.pairwise_insertionSort _ _
  have hsymm : Std.Symm fun a b : Entry => a.name ≠ b.name := ⟨fun _ _ h => h.symm⟩
  have hne : (sortedEntries p t scope dir keyPrefix).Pairwise fun a b => a.name ≠ b.name := by
    refine (List.perm_insertionSort _ _).symm.pairwise ?_ fun h => h.symm
    rw [List.pairwise_filterMap]
    refine (List.pairwise_map.mp (t.nodup_readDir dir)).imp ?_
    rintro ⟨m, k⟩ ⟨m', k'⟩ hmm a ha b hb
    have hname : ∀ {x : Text} {kind : Kind} {e : Entry},
        listed p scope keyPrefix (x, kind) = some e → e.name = x := by
      intro x kind e he
      obtain ⟨-, ⟨-, -, rfl⟩ | ⟨f, -, -, -, -, rfl⟩⟩ := listed_eq_some.mp he <;> rfl
    rw [hname ha, hname hb]
    exact hmm
  refine (hle.and hne).imp_of_mem ?_
  rintro a b ha hb ⟨hle, hname⟩
  refine lt_of_le_of_ne hle fun heq => hname ?_
  obtain ⟨hva, hsa⟩ := sortKey_of_mem ha
  obtain ⟨hvb, hsb⟩ := sortKey_of_mem hb
  rw [hsa, hsb] at heq
  -- a file and a directory do not sort alike: only one of the keys has a slash
  by_cases hda : a.isDir = true
  · by_cases hdb : b.isDir = true
    · rw [if_pos hda, if_pos hdb] at heq
      exact (List.append_inj' heq rfl).1
    · rw [if_pos hda, if_neg hdb] at heq
      exact absurd (heq ▸ by simp) hvb.2.1
  · by_cases hdb : b.isDir = true
    · rw [if_neg hda, if_pos hdb] at heq
      exact absurd (heq ▸ by simp) hva.2.1
    · rwa [if_neg hda, if_neg hdb] at heq

/-- The candidates come in the order of the keys they come from. -/
theorem pairwise_candidates (p : ListParams) (t : Tree) (scope : ReadScope) (n : ℕ) (dir : Path)
    (keyPrefix : Text) :
    (candidates p t scope n dir keyPrefix).Pairwise fun x y => x.1 < y.1 := by
  induction n generalizing dir keyPrefix with
  | zero => exact List.Pairwise.nil
  | succ n ih =>
    rw [candidates, List.pairwise_flatMap]
    constructor
    · intro e _
      unfold entryCandidates
      simp only
      split
      · split
        · exact List.Pairwise.nil
        · split
          · exact List.pairwise_singleton _ _
          · exact ih _ _
      · split
        · exact List.pairwise_singleton _ _
        · split
          · exact List.pairwise_singleton _ _
          · exact List.Pairwise.nil
    · refine (pairwise_sortedEntries p t scope dir keyPrefix).imp_of_mem ?_
      intro a b ha hb hlt x hx y hy
      have hkeys : keyPrefix ++ a.sortKey < keyPrefix ++ b.sortKey := List.append_left_lt hlt
      refine lt_of_lt_of_le ?_ (Rollup.le_of_isPrefix (isPrefix_of_mem_entry hy))
      cases hdir : a.isDir with
      | false =>
        rw [eq_of_mem_entry hdir hx]
        exact hkeys
      | true =>
        -- everything below a directory is below what comes after it
        refine Rollup.lt_of_lt_of_not_isPrefix (isPrefix_of_mem_entry hx) hkeys fun hpre => ?_
        obtain ⟨-, hsa⟩ := sortKey_of_mem ha
        obtain ⟨hvb, hsb⟩ := sortKey_of_mem hb
        rw [if_pos hdir] at hsa
        rw [List.prefix_append_right_inj, hsa] at hpre
        have heq := eq_of_slash_isPrefix hvb.2.1 (by rw [hsb]; split <;> simp) hpre
        rw [hsa, heq] at hlt
        exact absurd hlt (lt_irrefl _)

/-! ## What the candidates are -/

/-- A path below a directory, none of whose names below it starts with a dot. -/
def Shown (dir path : Path) : Prop :=
  ∃ rest, rest ≠ [] ∧ path = dir ++ rest ∧ ∀ name ∈ rest, name.head? ≠ some '.'

/-- What a file is listed as. -/
def unitOf (p : ListParams) (key : Text) (f : FileData) : ListUnit :=
  match commonPrefix p key with
  | some cp => .commonPrefix cp
  | none => .ofFile key f

/-- A file below a directory that belongs in the listing. -/
structure ListedFile (p : ListParams) (t : Tree) (scope : ReadScope) (dir path : Path)
    (f : FileData) : Prop where
  mem : (path, .file f) ∈ t.entries
  shown : Shown dir path
  servable : servable (fileKey path) = true
  pfx : p.pfx <+: fileKey path
  allowed : scope.allows (fileKey path) = true

/-- A directory below a directory that belongs in the listing and is rolled up. -/
structure ListedDir (p : ListParams) (t : Tree) (scope : ReadScope) (dir path : Path)
    (cp : Text) : Prop where
  mem : (path, .dir) ∈ t.entries
  shown : Shown dir path
  reached : scope.reaches (dirKey path) = true
  pfx : p.pfx <+: dirKey path
  rolled : commonPrefix p (dirKey path) = some cp

theorem commonPrefix_of_isPrefix {key key' cp : Text} (hpfx : p.pfx <+: key) (hkey : key <+: key')
    (h : commonPrefix p key = some cp) : commonPrefix p key' = some cp := by
  obtain ⟨d, hd, hcut⟩ := Option.bind_eq_some_iff.mp h
  exact Option.bind_eq_some_iff.mpr ⟨d, hd, Rollup.cut_of_isPrefix hpfx hkey hcut⟩

theorem Shown.concat {dir : Path} {name : Text} (h : name.head? ≠ some '.') :
    Shown dir (dir ++ [name]) := ⟨[name], by simp, rfl, by simpa using h⟩

theorem Shown.of_concat {dir path : Path} {name : Text} (hname : name.head? ≠ some '.')
    (h : Shown (dir ++ [name]) path) : Shown dir path := by
  obtain ⟨rest, -, rfl, hrest⟩ := h
  refine ⟨name :: rest, by simp, by simp, ?_⟩
  exact List.forall_mem_cons.mpr ⟨hname, hrest⟩

/-- Every candidate is a listed file or a rolled up directory. -/
theorem listed_of_mem_candidates {n : ℕ} {dir : Path} {x : Text × ListUnit}
    (hx : x ∈ candidates p t scope n dir (dirKey dir)) :
    (∃ path f, ListedFile p t scope dir path f ∧ x.2 = unitOf p (fileKey path) f) ∨
      ∃ path cp, ListedDir p t scope dir path cp ∧ x.2 = .commonPrefix cp := by
  induction n generalizing dir with
  | zero => cases hx
  | succ n ih =>
    obtain ⟨e, he, hx⟩ := List.mem_flatMap.mp hx
    obtain ⟨⟨name, kind⟩, hread, hlisted⟩ := mem_sortedEntries.mp he
    have hmem := Tree.mem_readDir.mp hread
    obtain ⟨hdot, ⟨rfl, hreach, rfl⟩ | ⟨f, rfl, hserv, hpfx, hallow, rfl⟩⟩ :=
      listed_eq_some.mp hlisted
    · simp only at hx
      rw [← dirKey_concat] at hx
      rcases mem_entryCandidates.mp hx with
        ⟨hpfx, cp, hcp, rfl⟩ | ⟨h, -⟩ | ⟨-, -, -, hx⟩
      · right
        rw [← dirKey_concat] at hcp hpfx
        rw [List.append_assoc, ← dirKey_concat] at hreach
        exact ⟨dir ++ [name], cp, ⟨hmem, Shown.concat hdot, hreach, hpfx rfl, hcp⟩, rfl⟩
      · simp at h
      · rcases ih hx with ⟨path, f, hfile, hunit⟩ | ⟨path, cp, hdir, hunit⟩
        · exact .inl ⟨path, f, { hfile with shown := hfile.shown.of_concat hdot }, hunit⟩
        · exact .inr ⟨path, cp, { hdir with shown := hdir.shown.of_concat hdot }, hunit⟩
    · left
      rw [← fileKey_concat] at hserv hpfx hallow
      have hfile : ListedFile p t scope dir (dir ++ [name]) f :=
        ⟨hmem, Shown.concat hdot, hserv, hpfx, hallow⟩
      refine ⟨dir ++ [name], f, hfile, ?_⟩
      simp only at hx
      rcases mem_entryCandidates.mp hx with ⟨-, cp, hcp, rfl⟩ | ⟨-, hcp, f', hkind, rfl⟩ | ⟨h, -⟩
      · rw [← fileKey_concat] at hcp
        simp only [unitOf, hcp]
      · rw [Tree.kind?_eq_some (by simp)] at hkind
        have hsame : f' = f := by
          have h := (Assoc.get_eq_some_iff t.nodup).mpr hkind
          rw [(Assoc.get_eq_some_iff t.nodup).mpr hmem] at h
          simpa using h.symm
        rw [← fileKey_concat] at hcp ⊢
        simp only [unitOf, hcp, hsame]
      · simp at h

/-- A directory on the way down to something that is listed is walked or rolled up. -/
theorem mem_candidates_of_dir {n : ℕ} {dir : Path} {name : Text} {key : Text} {u : ListUnit}
    (hmem : (dir ++ [name], .dir) ∈ t.entries) (hdot : name.head? ≠ some '.')
    (hreach : scope.reaches (dirKey (dir ++ [name])) = true)
    (hkey : dirKey (dir ++ [name]) <+: key) (hpfx : p.pfx <+: key)
    (hrolled : ∀ cp, commonPrefix p key = some cp → u = .commonPrefix cp)
    (hbelow : ∃ x ∈ candidates p t scope n (dir ++ [name]) (dirKey (dir ++ [name])), x.2 = u) :
    ∃ x ∈ candidates p t scope (n + 1) dir (dirKey dir), x.2 = u := by
  have hlisted : listed p scope (dirKey dir) (name, .dir) = some ⟨name ++ ['/'], name, true⟩ := by
    refine listed_eq_some.mpr ⟨hdot, .inl ⟨rfl, ?_, rfl⟩⟩
    rw [List.append_assoc, ← dirKey_concat]
    exact hreach
  have he : (⟨name ++ ['/'], name, true⟩ : Entry) ∈ sortedEntries p t scope dir (dirKey dir) :=
    mem_sortedEntries.mpr ⟨_, Tree.mem_readDir.mpr hmem, hlisted⟩
  have hcompat := List.prefix_or_prefix_of_prefix hpfx hkey
  by_cases hcp : p.pfx <+: dirKey (dir ++ [name]) ∧
      ∃ cp, commonPrefix p (dirKey (dir ++ [name])) = some cp
  · obtain ⟨hpfx', cp, hcp⟩ := hcp
    have hu := hrolled cp (commonPrefix_of_isPrefix hpfx' hkey hcp)
    refine ⟨(dirKey (dir ++ [name]), .commonPrefix cp), List.mem_flatMap.mpr ⟨_, he, ?_⟩, hu.symm⟩
    refine mem_entryCandidates.mpr (.inl ?_)
    simp only [← dirKey_concat]
    exact ⟨fun _ => hpfx', cp, hcp, rfl⟩
  · obtain ⟨x, hx, hu⟩ := hbelow
    refine ⟨x, List.mem_flatMap.mpr ⟨_, he, ?_⟩, hu⟩
    refine mem_entryCandidates.mpr (.inr (.inr ?_))
    simp only [← dirKey_concat]
    refine ⟨trivial, hcompat, fun hpfx' => ?_, hx⟩
    rw [Option.eq_none_iff_forall_ne_some]
    exact fun cp hcp' => hcp ⟨hpfx', cp, hcp'⟩

/-- With levels enough, every listed file and every rolled up directory has its line. -/
theorem mem_candidates_of_listedFile {n : ℕ} {dir path : Path} {f : FileData}
    (h : ListedFile p t scope dir path f) (hn : path.length ≤ dir.length + n) :
    ∃ x ∈ candidates p t scope n dir (dirKey dir), x.2 = unitOf p (fileKey path) f := by
  induction n generalizing dir with
  | zero =>
    obtain ⟨rest, hne, rfl, -⟩ := h.shown
    have := List.length_pos_of_ne_nil hne
    rw [List.length_append] at hn
    omega
  | succ n ih =>
    obtain ⟨rest, hne, rfl, hdots⟩ := h.shown
    obtain ⟨name, rest, rfl⟩ := List.exists_cons_of_ne_nil hne
    have hdot := hdots name List.mem_cons_self
    by_cases hrest : rest = []
    · subst hrest
      have hlisted : listed p scope (dirKey dir) (name, .file f) = some ⟨name, name, false⟩ := by
        refine listed_eq_some.mpr ⟨hdot, .inr ⟨f, rfl, ?_⟩⟩
        rw [← fileKey_concat]
        exact ⟨h.servable, h.pfx, h.allowed, rfl⟩
      have he : (⟨name, name, false⟩ : Entry) ∈ sortedEntries p t scope dir (dirKey dir) :=
        mem_sortedEntries.mpr ⟨_, Tree.mem_readDir.mpr h.mem, hlisted⟩
      refine ⟨(fileKey (dir ++ [name]), unitOf p (fileKey (dir ++ [name])) f),
        List.mem_flatMap.mpr ⟨_, he, mem_entryCandidates.mpr ?_⟩, rfl⟩
      simp only [← fileKey_concat]
      cases hcp : commonPrefix p (fileKey (dir ++ [name])) with
      | some cp =>
        left
        exact ⟨fun h => absurd h (by simp), cp, rfl, by simp only [unitOf, hcp]⟩
      | none =>
        right
        left
        exact ⟨trivial, rfl, f, (Tree.kind?_eq_some (by simp)).mpr h.mem, by simp only [unitOf, hcp]⟩
    · have hsplit : dir ++ name :: rest = (dir ++ [name]) ++ rest := by simp
      have hdir : (dir ++ [name], .dir) ∈ t.entries := by
        rw [← Tree.kind?_eq_some (by simp)]
        exact Tree.kind?_of_append hrest (hsplit ▸ h.mem)
      have hkey : dirKey (dir ++ [name]) <+: fileKey (dir ++ name :: rest) := by
        rw [hsplit]
        exact dirKey_isPrefix_fileKey _ hrest
      refine mem_candidates_of_dir hdir hdot (ReadScope.reaches_of_allows hkey h.allowed) hkey h.pfx
        ?_ (ih ?_ ?_)
      · intro cp hcp
        simp only [unitOf, hcp]
      · exact { h with shown := ⟨rest, hrest, hsplit, fun x hx => hdots x (List.mem_cons_of_mem _ hx)⟩ }
      · simp only [List.length_append, List.length_cons, List.length_nil] at hn ⊢
        omega

theorem mem_candidates_of_listedDir {n : ℕ} {dir path : Path} {cp : Text}
    (h : ListedDir p t scope dir path cp) (hn : path.length ≤ dir.length + n) :
    ∃ x ∈ candidates p t scope n dir (dirKey dir), x.2 = .commonPrefix cp := by
  induction n generalizing dir with
  | zero =>
    obtain ⟨rest, hne, rfl, -⟩ := h.shown
    have := List.length_pos_of_ne_nil hne
    rw [List.length_append] at hn
    omega
  | succ n ih =>
    obtain ⟨rest, hne, rfl, hdots⟩ := h.shown
    obtain ⟨name, rest, rfl⟩ := List.exists_cons_of_ne_nil hne
    have hdot := hdots name List.mem_cons_self
    have hrolled : ∀ cp', commonPrefix p (dirKey (dir ++ name :: rest)) = some cp' →
        ListUnit.commonPrefix cp = .commonPrefix cp' := by
      intro cp' hcp'
      rw [h.rolled, Option.some.injEq] at hcp'
      rw [hcp']
    by_cases hrest : rest = []
    · subst hrest
      have hlisted : listed p scope (dirKey dir) (name, .dir) = some ⟨name ++ ['/'], name, true⟩ := by
        refine listed_eq_some.mpr ⟨hdot, .inl ⟨rfl, ?_, rfl⟩⟩
        rw [List.append_assoc, ← dirKey_concat]
        exact h.reached
      refine ⟨(dirKey (dir ++ [name]), .commonPrefix cp), List.mem_flatMap.mpr ⟨_,
        mem_sortedEntries.mpr ⟨_, Tree.mem_readDir.mpr h.mem, hlisted⟩,
        mem_entryCandidates.mpr (.inl ?_)⟩, rfl⟩
      simp only [← dirKey_concat]
      exact ⟨fun _ => h.pfx, cp, h.rolled, rfl⟩
    · have hsplit : dir ++ name :: rest = (dir ++ [name]) ++ rest := by simp
      have hdir : (dir ++ [name], .dir) ∈ t.entries := by
        rw [← Tree.kind?_eq_some (by simp)]
        exact Tree.kind?_of_append hrest (hsplit ▸ h.mem)
      have hkey : dirKey (dir ++ [name]) <+: dirKey (dir ++ name :: rest) := by
        rw [hsplit]
        exact dirKey_isPrefix _ _
      refine mem_candidates_of_dir hdir hdot (ReadScope.reaches_of_reaches hkey h.reached) hkey
        h.pfx hrolled (ih ?_ ?_)
      · exact { h with shown := ⟨rest, hrest, hsplit, fun x hx => hdots x (List.mem_cons_of_mem _ hx)⟩ }
      · simp only [List.length_append, List.length_cons, List.length_nil] at hn ⊢
        omega

end

end LogLess.S3
