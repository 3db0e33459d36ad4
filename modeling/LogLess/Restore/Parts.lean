import LogLess.Restore.Derive

/-!
# The parts of a restore

A part of the listing is intact if it can be fetched and passes every check. The loop installs the
intact parts, each where its rows belong, and puts every name into one list of the report. The
leaves of the store are then those of the parts and the others that were there before.
-/

namespace LogLess.Restore

open Store

variable {β : Type} (reader : Reader β) (options : Options) (source : PartSource β)

/-! ## The parts -/

/-- What a name of the listing stands for, if it can be fetched and passes every check. -/
def intact (name : Text) : Option (β × Verified) :=
  match source.fetch name with
  | .ok b =>
    match verifyPart reader options.tenancy b name (options.expected name) with
    | .ok v => some (b, v)
    | .error _ => none
  | .error _ => none

structure Part (β : Type) where
  name : Text
  content : β
  found : Verified

def Part.path (x : Part β) : Path := destination x.found x.name

/-- The intact parts of a listing. -/
def intactParts (names : List Text) : List (Part β) :=
  names.filterMap fun n => (intact reader options source n).map fun x => ⟨n, x.1, x.2⟩

/-- The rows of a file. -/
def rowsOf (b : β) : List LogRecord :=
  match reader.decode b with
  | .ok rows => rows
  | .error _ => []

/-- The names that are in a list of the report, and those of the installed parts. -/
def Report.places (r : Report) (installed : List (Path × Text)) : List Text :=
  installed.map Prod.snd ++ r.hashMismatch ++ r.sizeMismatch ++ r.rowsMismatch ++ r.unreadable
    ++ r.fetchFailed ++ r.missing

variable {reader options source} {p : Progress β} {name : Text}

theorem fetch_of_intact {b : β} {v : Verified}
    (h : intact reader options source name = some (b, v)) :
    source.fetch name = .ok b ∧
      verifyPart reader options.tenancy b name (options.expected name) = .ok v := by
  unfold intact at h
  split at h
  · next b' hfetch =>
    split at h
    · next v' hverify =>
      cases h
      exact ⟨hfetch, hverify⟩
    · cases h
  · cases h

/-- An intact part is installed. -/
theorem restorePart_intact {b : β} {v : Verified}
    (h : intact reader options source name = some (b, v)) :
    ∃ notInInventory, restorePart reader options source p name
      = Progress.install { p with report := { p.report with
          notInInventory := notInInventory } } name b v := by
  obtain ⟨hfetch, hverify⟩ := fetch_of_intact h
  unfold restorePart
  simp only [hfetch, hverify]
  split
  · exact ⟨_, rfl⟩
  · exact ⟨_, rfl⟩

/-- One list has the name added, and the numbers of installed parts are the same. -/
structure Report.Adds (name : Text) (r r' : Report) : Prop where
  restored : r'.restored = r.restored
  rows : r'.rows = r.rows
  bytes : r'.bytes = r.bytes
  reverifyBad : r'.reverifyBad = r.reverifyBad
  places : ∀ installed, (r'.places installed).Perm (name :: r.places installed)

theorem Report.Adds.of_notInInventory {r r' : Report} {names : List Text}
    (h : Report.Adds name { r with notInInventory := names } r') : r.Adds name r' :=
  ⟨h.restored, h.rows, h.bytes, h.reverifyBad, h.places⟩

theorem Report.adds_missing (r : Report) (details : List (Text × Text)) :
    r.Adds name { r with details := details, missing := r.missing ++ [name] } := by
  refine ⟨rfl, rfl, rfl, rfl, fun installed => ?_⟩
  simp only [places, ← List.append_assoc]
  exact List.perm_append_singleton _ _

theorem Report.adds_fetchFailed (r : Report) (details : List (Text × Text)) :
    r.Adds name { r with details := details, fetchFailed := r.fetchFailed ++ [name] } := by
  refine ⟨rfl, rfl, rfl, rfl, fun installed => List.perm_iff_count.mpr fun n => ?_⟩
  simp only [places, List.count_append, List.count_cons, List.count_nil]
  omega

theorem Report.adds_refuse (r : Report) (problem : Problem) :
    r.Adds name (r.refuse name problem) := by
  cases problem <;>
    refine ⟨rfl, rfl, rfl, rfl, fun installed => List.perm_iff_count.mpr fun n => ?_⟩ <;>
    simp only [places, refuse, List.count_append, List.count_cons, List.count_nil] <;> omega

/-- Another part leaves everything but the report as it is, and is put into one of its lists. -/
theorem restorePart_refused (h : intact reader options source name = none) :
    (restorePart reader options source p name).files = p.files ∧
    (restorePart reader options source p name).installed = p.installed ∧
    (restorePart reader options source p name).derived = p.derived ∧
    p.report.Adds name (restorePart reader options source p name).report := by
  unfold intact at h
  unfold restorePart
  cases hfetch : source.fetch name with
  | error e =>
    cases e with
    | notFound =>
      refine ⟨rfl, rfl, rfl, ?_⟩
      simp only
      split
      · exact (Report.adds_missing _ _).of_notInInventory
      · exact Report.adds_missing _ _
    | other why =>
      refine ⟨rfl, rfl, rfl, ?_⟩
      simp only
      split
      · exact (Report.adds_fetchFailed _ _).of_notInInventory
      · exact Report.adds_fetchFailed _ _
  | ok b =>
    rw [hfetch] at h
    simp only at h ⊢
    cases hverify : verifyPart reader options.tenancy b name (options.expected name) with
    | ok v =>
      rw [hverify] at h
      cases h
    | error problem =>
      refine ⟨rfl, rfl, rfl, ?_⟩
      simp only
      split
      · exact (Report.adds_refuse _ _).of_notInInventory
      · exact Report.adds_refuse _ _

/-! ## The loop -/

/-- The files of the store after some parts are installed. -/
def installAll (files : List (Path × β)) (parts : List (Part β)) : List (Path × β) :=
  parts.foldl (fun files x => Assoc.insert files x.path x.content) files

/-- What the loop has done to `p` when it is at `q`. -/
structure Progress.After (names : List Text) (parts : List (Part β)) (p q : Progress β) :
    Prop where
  files : q.files = installAll p.files parts
  installed : q.installed = p.installed ++ parts.map fun x => (x.path, x.name)
  derived : q.derived = (parts.map fun x => x.found.derived).foldl Derived.merge p.derived
  restored : q.report.restored = p.report.restored + parts.length
  rows : q.report.rows = p.report.rows + (parts.map fun x => x.found.rows).sum
  bytes : q.report.bytes = p.report.bytes + (parts.map fun x => x.found.bytes).sum
  reverifyBad : q.report.reverifyBad = p.report.reverifyBad
  places : (q.report.places q.installed).Perm (names ++ p.report.places p.installed)

/-- **The loop** installs the intact parts and puts each name into one list. -/
theorem restoreParts_spec (names : List Text) (p : Progress β) :
    p.After names (intactParts reader options source names)
      (names.foldl (restorePart reader options source) p) := by
  induction names generalizing p with
  | nil => exact ⟨rfl, (List.append_nil _).symm, rfl, rfl, rfl, rfl, rfl, List.Perm.refl _⟩
  | cons name names ih =>
    obtain ⟨hfiles, hinstalled, hderived, hrestored, hrows, hbytes, hbad, hplaces⟩ :=
      ih (restorePart reader options source p name)
    rw [List.foldl_cons]
    cases h : intact reader options source name with
    | none =>
      obtain ⟨hf, hi, hd, hadds⟩ := @restorePart_refused β reader options source p name h
      have hparts : intactParts reader options source (name :: names)
          = intactParts reader options source names := by
        rw [intactParts, List.filterMap_cons, h]
        rfl
      rw [hf] at hfiles
      rw [hi] at hinstalled
      rw [hd] at hderived
      rw [hadds.restored] at hrestored
      rw [hadds.rows] at hrows
      rw [hadds.bytes] at hbytes
      rw [hadds.reverifyBad] at hbad
      rw [hparts]
      refine ⟨hfiles, hinstalled, hderived, hrestored, hrows, hbytes, hbad, hplaces.trans ?_⟩
      rw [hi]
      refine ((hadds.places p.installed).append_left names).trans ?_
      exact List.perm_middle
    | some x =>
      obtain ⟨b, v⟩ := x
      obtain ⟨others, hstep⟩ := @restorePart_intact β reader options source p name b v h
      have hparts : intactParts reader options source (name :: names)
          = ⟨name, b, v⟩ :: intactParts reader options source names := by
        rw [intactParts, List.filterMap_cons, h]
        rfl
      rw [hstep] at hfiles hinstalled hderived hrestored hrows hbytes hbad hplaces ⊢
      rw [hparts]
      refine ⟨hfiles, ?_, hderived, ?_, ?_, ?_, hbad, hplaces.trans ?_⟩
      · rw [hinstalled]
        simp only [Progress.install, List.append_assoc]
        rfl
      · rw [hrestored]
        simp only [Progress.install, List.length_cons]
        omega
      · rw [hrows]
        simp only [Progress.install, List.map_cons, List.sum_cons]
        omega
      · rw [hbytes]
        simp only [Progress.install, List.map_cons, List.sum_cons]
        omega
      · refine List.perm_iff_count.mpr fun n => ?_
        simp only [Progress.install, Report.places, List.map_append, List.map_cons, List.map_nil,
          List.count_append, List.count_cons, List.count_nil]
        omega

/-! ## The listing -/

theorem PartSource.list_spec {names : List Text} {ignored : ℕ}
    (h : source.list = .ok (names, ignored)) :
    names.Nodup ∧ ∀ name ∈ names, validName name = true := by
  unfold PartSource.list at h
  cases hentries : source.entries with
  | error why =>
    rw [hentries] at h
    cases h
  | ok entries =>
    rw [hentries] at h
    cases h
    constructor
    · exact (List.perm_insertionSort _ _).nodup_iff.mpr (List.nodup_dedup _)
    · intro name hname
      rw [List.mem_insertionSort, List.mem_dedup] at hname
      exact (List.mem_filter.mp hname).2

variable {names : List Text}

theorem mem_intactParts {x : Part β} :
    x ∈ intactParts reader options source names ↔
      x.name ∈ names ∧ intact reader options source x.name = some (x.content, x.found) := by
  rw [intactParts, List.mem_filterMap]
  constructor
  · intro h
    obtain ⟨n, hn, hx⟩ := h
    obtain ⟨⟨b, v⟩, hintact, rfl⟩ := Option.map_eq_some_iff.mp hx
    exact ⟨hn, hintact⟩
  · intro h
    refine ⟨x.name, h.1, ?_⟩
    rw [h.2]
    rfl

theorem nodup_names (h : names.Nodup) :
    ((intactParts reader options source names).map Part.name).Nodup := by
  have hsub := @Lists.sublist_filterMap _ _ _
    (fun n => (intact reader options source n).map fun x => (⟨n, x.1, x.2⟩ : Part β)) id Part.name
    (fun n x hx => by
      obtain ⟨-, -, rfl⟩ := Option.map_eq_some_iff.mp hx
      rfl) names
  rw [List.map_id] at hsub
  exact h.sublist hsub

theorem nodup_paths (h : names.Nodup) :
    ((intactParts reader options source names).map Part.path).Nodup := by
  have hpair := List.pairwise_map.mp (@nodup_names β reader options source names h)
  refine List.pairwise_map.mpr (hpair.imp fun hne heq => hne ?_)
  exact (List.append_singleton_inj.mp heq).2

/-- What an intact part is. -/
theorem passes_of_mem {x : Part β} (hx : x ∈ intactParts reader options source names) :
    Passes reader options.tenancy x.content x.name (options.expected x.name) x.found :=
  passes_of_verifyPart (fetch_of_intact (mem_intactParts.mp hx).2).2

/-! ## Where parts are installed -/

theorem Scope.valid_key (tenancy : Tenancy) (footer : Footer) {epochHour : ℕ}
    (h : epochHour < 2 ^ 63) (severity : Severity) :
    ((scopeOf tenancy footer).key tenancy epochHour severity).Valid := by
  have hnamed : ∀ (value : Option Text) {fallback : Text}, validIdent fallback = true →
      validIdent ((value.filter validIdent).getD fallback) = true := by
    intro value fallback hfallback
    cases hv : value.filter validIdent with
    | none => exact hfallback
    | some v => exact (Option.filter_eq_some_iff.mp hv).2
  exact
    { tenant := hnamed _ (validIdent_tenant tenancy)
      index := hnamed _ (validIdent_defaultIndex tenancy tenancy.tenant)
      node := hnamed _ tenancy.checked_tenants.1
      bucket := bucket_ne_nil tenancy _ _ severity
      epochHour := h }

theorem Scope.valid_partKey (tenancy : Tenancy) (footer : Footer) {rows : List LogRecord}
    (h : ∀ r ∈ rows, r.timestampUnixNano < 2 ^ 64) :
    ((scopeOf tenancy footer).partKey tenancy rows).Valid := by
  unfold partKey
  cases rows with
  | nil => exact valid_key tenancy footer (by decide) ⟨0⟩
  | cons r rows =>
    refine valid_key tenancy footer ?_ r.severity
    have hr := h r List.mem_cons_self
    unfold nanosPerHour
    omega

/-- Times are of 64 bits. -/
def Reader.Timed (reader : Reader β) : Prop :=
  ∀ b rows, reader.decode b = .ok rows → ∀ r ∈ rows, r.timestampUnixNano < 2 ^ 64

theorem keyOfPath_part (htimed : reader.Timed) {x : Part β}
    (hx : x ∈ intactParts reader options source names) : keyOfPath x.path = some x.found.key := by
  obtain ⟨footer, rows, -, hrows, -, hfound⟩ := (passes_of_mem hx).found
  refine keyOfPath_dir ?_ x.name
  rw [hfound]
  exact Scope.valid_partKey options.tenancy footer (htimed x.content rows hrows)

/-- The rows of a part are what its sightings and templates are derived from. -/
theorem derived_part {x : Part β} (hx : x ∈ intactParts reader options source names) :
    x.found.derived = (rowsOf reader x.content).foldl
      (Derived.addRow x.found.key.tenant x.found.key.index) .empty := by
  obtain ⟨footer, rows, -, hrows, -, hfound⟩ := (passes_of_mem hx).found
  have hkey : x.found.key.tenant = (scopeOf options.tenancy footer).tenant ∧
      x.found.key.index = (scopeOf options.tenancy footer).index := by
    rw [hfound]
    cases rows with
    | nil => exact ⟨rfl, rfl⟩
    | cons r rows => exact ⟨rfl, rfl⟩
  rw [rowsOf, hrows, hkey.1, hkey.2, hfound]
  rfl

/-- The row of a part in the catalog. -/
theorem fileRow_part {x : Part β} (hx : x ∈ intactParts reader options source names) :
    ∃ row : FileRow, fileRow reader (x.path, x.found.key, x.content) = .ok (x.path, row) ∧
      row.stats.rows = x.found.rows ∧ row.bytes = x.found.bytes := by
  obtain ⟨footer, rows, hfooter, -, -, hfound⟩ := (passes_of_mem hx).found
  refine ⟨⟨x.found.key, footer.stats, reader.len x.content⟩, ?_, ?_, ?_⟩
  · rw [fileRow, hfooter]
  · rw [hfound]
    rfl
  · rw [hfound]
    rfl

/-! ## The files -/

theorem get_installAll (files : List (Path × β)) {parts : List (Part β)}
    (h : (parts.map Part.path).Nodup) (q : Path) :
    Assoc.get (installAll files parts) q
      = (Assoc.get (parts.map fun x => (x.path, x.content)) q).or (Assoc.get files q) := by
  induction parts generalizing files with
  | nil => rfl
  | cons x parts ih =>
    rw [List.map_cons, List.nodup_cons] at h
    have hrest := ih (Assoc.insert files x.path x.content) h.2
    show Assoc.get (installAll (Assoc.insert files x.path x.content) parts) q = _
    rw [hrest, Assoc.get_insert]
    by_cases hq : q = x.path
    · have hnone : Assoc.get (parts.map fun x => (x.path, x.content)) q = none := by
        rw [← Option.not_isSome_iff_eq_none, Assoc.isSome_get, List.map_map, hq]
        exact h.1
      rw [hnone, if_pos hq]
      simp [Assoc.get, hq]
    · rw [if_neg hq]
      simp [Assoc.get, Ne.symm hq]

theorem nodup_installAll {files : List (Path × β)} (h : (files.map Prod.fst).Nodup)
    (parts : List (Part β)) : ((installAll files parts).map Prod.fst).Nodup := by
  induction parts generalizing files with
  | nil => exact h
  | cons x parts ih => exact ih (Assoc.nodup_keys_insert h _ _)

theorem mem_leaves {files : List (Path × β)} {l : Path × PartitionKey × β} :
    l ∈ leaves files ↔ keyOfPath l.1 = some l.2.1 ∧ Assoc.get files l.1 = some l.2.2 := by
  obtain ⟨q, key, b⟩ := l
  rw [leaves, List.mem_filterMap]
  constructor
  · rintro ⟨p, -, h⟩
    obtain ⟨k, hk, h⟩ := Option.bind_eq_some_iff.mp h
    obtain ⟨c, hc, h⟩ := Option.bind_eq_some_iff.mp h
    cases h
    exact ⟨hk, hc⟩
  · intro h
    refine ⟨q, ?_, ?_⟩
    · rw [listing, List.mem_insertionSort]
      exact Assoc.mem_keys_of_get h.2
    · simp only at h
      rw [h.1, h.2]
      rfl

theorem nodup_leaves {files : List (Path × β)} (h : (files.map Prod.fst).Nodup) :
    ((leaves files).map Prod.fst).Nodup := by
  have hsub := @Lists.sublist_filterMap _ _ _ (fun p => do
    let key ← keyOfPath p
    let b ← Assoc.get files p
    return (p, key, b)) id Prod.fst (fun p l hl => by
      obtain ⟨k, -, hl⟩ := Option.bind_eq_some_iff.mp hl
      obtain ⟨c, -, hl⟩ := Option.bind_eq_some_iff.mp hl
      cases hl
      rfl) (listing files)
  rw [List.map_id] at hsub
  exact ((List.perm_insertionSort _ _).nodup_iff.mpr h).sublist hsub

/-- The leaves that no part is installed over. -/
def others (files : List (Path × β)) (parts : List (Part β)) : List (Path × PartitionKey × β) :=
  (leaves files).filter fun l => !((parts.map Part.path).contains l.1)

/-- **The leaves after the parts are installed** are those of the parts, and the others. -/
theorem leaves_installAll (htimed : reader.Timed) {files : List (Path × β)}
    (hfiles : (files.map Prod.fst).Nodup) (hnames : names.Nodup) :
    let parts := intactParts reader options source names
    (leaves (installAll files parts)).Perm
      ((parts.map fun x => (x.path, x.found.key, x.content)) ++ others files parts) := by
  intro parts
  have hpaths : (parts.map Part.path).Nodup := nodup_paths hnames
  have hparts : ((parts.map fun x => (x.path, x.content)).map Prod.fst).Nodup := by
    rw [List.map_map]
    exact hpaths
  have hleft : (leaves (installAll files parts)).Nodup :=
    (nodup_leaves (nodup_installAll hfiles parts)).of_map
  have hright : ((parts.map fun x => (x.path, x.found.key, x.content))
      ++ others files parts).Nodup := by
    refine List.Nodup.append ?_ (((nodup_leaves hfiles).of_map).filter _) ?_
    · refine List.Nodup.of_map Prod.fst ?_
      rw [List.map_map]
      exact hpaths
    · intro l hl hl'
      obtain ⟨x, hx, rfl⟩ := List.mem_map.mp hl
      have hnot := (List.mem_filter.mp hl').2
      simp only [Bool.not_eq_true', List.contains_eq_mem, decide_eq_false_iff_not] at hnot
      exact hnot (List.mem_map_of_mem hx)
  refine (List.perm_ext_iff_of_nodup hleft hright).mpr fun l => ?_
  obtain ⟨q, key, b⟩ := l
  rw [mem_leaves, get_installAll files hpaths, List.mem_append, others, List.mem_filter, mem_leaves]
  simp only [Bool.not_eq_true', List.contains_eq_mem, decide_eq_false_iff_not]
  have hmem : ∀ c, Assoc.get (parts.map fun x => (x.path, x.content)) q = some c ↔
      ∃ x ∈ parts, x.path = q ∧ x.content = c := by
    intro c
    rw [Assoc.get_eq_some_iff hparts, List.mem_map]
    simp only [Prod.mk.injEq]
  cases hget : Assoc.get (parts.map fun x => (x.path, x.content)) q with
  | some c =>
    obtain ⟨x, hx, hpath, hcontent⟩ := (hmem c).mp hget
    have hkey := keyOfPath_part htimed hx
    have hin : q ∈ parts.map Part.path := hpath ▸ List.mem_map_of_mem hx
    rw [Option.some_or, List.mem_map]
    constructor
    · intro h
      left
      refine ⟨x, hx, ?_⟩
      rw [hpath] at hkey ⊢
      rw [hkey, Option.some.injEq] at h
      rw [h.1, hcontent, Option.some.inj h.2]
    · rintro (⟨y, hy, heq⟩ | h)
      · cases heq
        have hcy := (hmem y.content).mpr ⟨y, hy, rfl, rfl⟩
        rw [hcy] at hget
        exact ⟨keyOfPath_part htimed hy, hget.symm⟩
      · exact absurd hin h.2
  | none =>
    have hnot : q ∉ parts.map Part.path := by
      intro hin
      obtain ⟨x, hx, hpath⟩ := List.mem_map.mp hin
      have := (hmem x.content).mpr ⟨x, hx, hpath, rfl⟩
      rw [hget] at this
      cases this
    rw [Option.none_or]
    constructor
    · exact fun h => .inr ⟨h, hnot⟩
    · rintro (h | h)
      · obtain ⟨x, hx, heq⟩ := List.mem_map.mp h
        cases heq
        exact absurd (List.mem_map_of_mem hx) hnot
      · exact h.1

end LogLess.Restore
