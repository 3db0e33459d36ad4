import LogLess.Agent.Process
import LogLess.Restore.Exact

/-!
# What a restore ends with

The end of a restore in terms of its intact parts, and from it: a restore is sound and complete if
and only if nothing in the target is harmful.
-/

namespace LogLess.Restore

open Store

variable {β : Type} {reader : Reader β} {options : Options} {source : PartSource β}
  {names : List Text}

/-! ## What a restore ends with -/

/-- What the rows of the intact parts say. -/
def derivedAll (parts : List (Part β)) : Derived :=
  (parts.map fun x => x.found.derived).foldl Derived.merge .empty

/-- The end of a restore, in terms of its intact parts. -/
structure Finished (reader : Reader β) (options : Options) (source : PartSource β)
    (names : List Text) (target : Target β) (r : Restored β) : Prop where
  installed : r.installed
    = (intactParts reader options source names).map fun x => (x.path, x.name)
  files : r.files = installAll target.files (intactParts reader options source names)
  rows : (leaves r.files).map (fileRow reader) = r.catalog.files.map .ok
  totals : r.report.catalogFiles = r.catalog.files.length ∧
    r.report.catalogRows = (r.catalog.files.map fun f => f.2.stats.rows).sum ∧
    r.report.catalogBytes = (r.catalog.files.map fun f => f.2.bytes).sum
  services : r.catalog.templateServices
    = (derivedAll (intactParts reader options source names)).sightings.foldl Tally.record []
  templates :
    let numbered := (derivedAll (intactParts reader options source names)).numbered
    r.catalog.tables = ((target.catalog.getD .empty).tables.saveTemplates
      (numbered.map templateOf)).registerShapes (numbered.map shapeOf)
  restored : r.report.restored = (intactParts reader options source names).length
  places : (r.report.places r.installed).Perm (options.known names)
  reverifyBad : r.report.reverifyBad = [] ↔ (options.reverify = true →
    others target.files (intactParts reader options source names) = [])

theorem places_start (ignored : ℕ) :
    (Report.start options names ignored).places []
      = options.inventoried.filter fun n => !(names.contains n) := rfl

/-- Installed files hash to their names. -/
theorem rehash_eq_nil (hlist : ∀ n ∈ names, validName n = true) (hnames : names.Nodup)
    (files : List (Path × β)) :
    let parts := intactParts reader options source names
    rehash reader (installAll files parts) (parts.map fun x => (x.path, x.name)) = [] := by
  intro parts
  have hpaths : (parts.map Part.path).Nodup := nodup_paths hnames
  have hcontents : ((parts.map fun x => (x.path, x.content)).map Prod.fst).Nodup := by
    rw [List.map_map]
    exact hpaths
  rw [rehash, List.map_eq_nil_iff, List.filter_eq_nil_iff]
  intro e he
  obtain ⟨x, hx, rfl⟩ := List.mem_map.mp he
  have hget : Assoc.get (installAll files parts) x.path = some x.content := by
    rw [get_installAll files hpaths, (Assoc.get_eq_some_iff hcontents).mpr
      (List.mem_map.mpr ⟨x, hx, rfl⟩), Option.some_or]
  have hhash := (passes_of_mem hx).hash
  have hname := hashOfName_append (hlist x.name (mem_intactParts.mp hx).1)
  rw [hget, Option.map_some, hhash, hname]
  simp

/-- A sum over the rows of files is one over the parts, when there are no other leaves. -/
theorem sum_rows {files : List (Path × β)} {parts : List (Part β)}
    {rows : List (Path × FileRow)} {f : Path × FileRow → ℕ} {g : Part β → ℕ}
    (hrows : (leaves files).map (fileRow reader) = rows.map .ok)
    (hleaves : (leaves files).Perm (parts.map fun x => (x.path, x.found.key, x.content)))
    (hpart : ∀ x ∈ parts, ∃ e, fileRow reader (x.path, x.found.key, x.content) = .ok e ∧
      f e = g x) : (rows.map f).sum = (parts.map g).sum := by
  let count : Except RestoreError (Path × FileRow) → ℕ := fun e => (e.toOption.map f).getD 0
  have hperm := (hleaves.map (fileRow reader)).map count
  rw [hrows, List.map_map, List.map_map, List.map_map] at hperm
  have heq : (parts.map ((count ∘ fileRow reader) ∘ fun x => (x.path, x.found.key, x.content)))
      = parts.map g := by
    refine List.map_congr_left fun x hx => ?_
    obtain ⟨e, he, hfe⟩ := hpart x hx
    show count (fileRow reader (x.path, x.found.key, x.content)) = g x
    rw [he]
    exact hfe
  rw [heq] at hperm
  exact hperm.sum_eq

/-- The second pass adds the catalog to the bad files unless it has the numbers of the parts. -/
theorem Report.reverify_nil {r : Report} (h : r.reverifyBad = []) :
    ((r.reverify []).reverifyBad = [] ↔
      r.catalogFiles = r.restored ∧ r.catalogRows = r.rows ∧ r.catalogBytes = r.bytes) ∧
    (∀ installed, (r.reverify []).places installed = r.places installed) ∧
    (r.reverify []).restored = r.restored ∧ (r.reverify []).catalogFiles = r.catalogFiles ∧
    (r.reverify []).catalogRows = r.catalogRows ∧
    (r.reverify []).catalogBytes = r.catalogBytes := by
  unfold reverify
  simp only [List.append_nil]
  split
  · next hne =>
    refine ⟨?_, fun _ => rfl, rfl, rfl, rfl, rfl⟩
    simp only [List.append_eq_nil_iff, List.cons_ne_nil, and_false, false_iff]
    tauto
  · next heq =>
    refine ⟨?_, fun _ => rfl, rfl, rfl, rfl, rfl⟩
    simp only [h, true_iff]
    tauto

/-- The report of the end differs from `r` in its bad files only. -/
theorem Report.reverified {r : Report} (h : r.reverifyBad = []) (again : Bool)
    (installed : List (Path × Text)) :
    let r' := if again then r.reverify [] else r
    (r'.reverifyBad = [] ↔ (again = true →
      r.catalogFiles = r.restored ∧ r.catalogRows = r.rows ∧ r.catalogBytes = r.bytes)) ∧
    r'.places installed = r.places installed ∧ r'.restored = r.restored ∧
    r'.catalogFiles = r.catalogFiles ∧ r'.catalogRows = r.catalogRows ∧
    r'.catalogBytes = r.catalogBytes := by
  obtain ⟨hbad, hplaces, hsame⟩ := reverify_nil h
  intro r'
  cases again with
  | false => exact ⟨iff_of_true h fun hfalse => absurd hfalse Bool.false_ne_true, rfl, rfl, rfl,
      rfl, rfl⟩
  | true => exact ⟨hbad.trans ⟨fun hr _ => hr, fun hr => hr rfl⟩, hplaces installed, hsame⟩

/-- The totals are those of the parts if and only if there are no other leaves. -/
theorem totals_iff (htimed : reader.Timed) {files : List (Path × β)}
    (hfiles : (files.map Prod.fst).Nodup) (hnames : names.Nodup)
    {rows : List (Path × FileRow)} :
    let parts := intactParts reader options source names
    (leaves (installAll files parts)).map (fileRow reader) = rows.map .ok →
    ((rows.length = parts.length ∧
      (rows.map fun f => f.2.stats.rows).sum = (parts.map fun x => x.found.rows).sum ∧
      (rows.map fun f => f.2.bytes).sum = (parts.map fun x => x.found.bytes).sum) ↔
      others files parts = []) := by
  intro parts hrows
  have hleaves : (leaves (installAll files parts)).Perm
      ((parts.map fun x => (x.path, x.found.key, x.content)) ++ others files parts) :=
    leaves_installAll htimed hfiles hnames
  have hlength : rows.length = parts.length + (others files parts).length := by
    have hlen := hleaves.length_eq
    have hrowsLen := congrArg List.length hrows
    rw [List.length_map, List.length_map] at hrowsLen
    rw [List.length_append, List.length_map] at hlen
    rw [← hrowsLen, hlen]
  constructor
  · intro h
    rw [h.1] at hlength
    exact List.length_eq_zero_iff.mp (by omega)
  · intro h
    rw [h, List.append_nil] at hleaves
    rw [h, List.length_nil, Nat.add_zero] at hlength
    refine ⟨hlength, ?_, ?_⟩
    · refine sum_rows hrows hleaves fun x hx => ?_
      obtain ⟨row, hrow, hcount, -⟩ := fileRow_part hx
      exact ⟨_, hrow, hcount⟩
    · refine sum_rows hrows hleaves fun x hx => ?_
      obtain ⟨row, hrow, -, hbytes⟩ := fileRow_part hx
      exact ⟨_, hrow, hbytes⟩

/-- **A restore ends** if the listing does not fail, it may write to the target, and what stays
there can be read. -/
theorem restore_finished {ignored : ℕ} {target : Target β}
    (hlist : source.list = .ok (names, ignored))
    (hfree : options.force = true ∨ target.catalog = none ∧ target.files = [])
    (hnodup : (target.files.map Prod.fst).Nodup)
    (hreadable : Readable reader
      (others target.files (intactParts reader options source names)))
    (htimed : reader.Timed) :
    ∃ r, restore reader options source target = .ok r ∧
      Finished reader options source names target r := by
  obtain ⟨hnames, hvalid⟩ := PartSource.list_spec hlist
  have hgo : (!options.force && (target.catalog.isSome || !(listing target.files).isEmpty))
      = false := by
    rcases hfree with h | ⟨hcatalog, hfiles⟩
    · rw [h]
      rfl
    · rw [hcatalog, hfiles]
      exact Bool.and_false _
  have hread : Readable reader
      (leaves (installAll target.files (intactParts reader options source names))) :=
    readable_installAll htimed hnodup hnames hreadable
  obtain ⟨q, hq⟩ : ∃ q, q = names.foldl (restorePart reader options source)
    ⟨target.files, [], .empty, Report.start options names ignored⟩ := ⟨_, rfl⟩
  obtain ⟨hfiles, hinstalled, hderived, hrestored, hcount, hbytes, hbad, hplaces⟩ :=
    @restoreParts_spec β reader options source names
      ⟨target.files, [], .empty, Report.start options names ignored⟩
  rw [← hq] at hfiles hinstalled hderived hrestored hcount hbytes hbad hplaces
  obtain ⟨rows, hrebuild, hrows⟩ :=
    rebuild_spec (target.catalog.getD .empty) (nodup_installAll hnodup _) hread
  have hrehash : rehash reader q.files q.installed = [] := by
    rw [hfiles, hinstalled]
    exact rehash_eq_nil hvalid hnames target.files
  have htotals := totals_iff htimed hnodup hnames hrows
  let numbered := q.derived.numbered
  let catalog : CatalogTables := CatalogTables.restoreTemplates
    { target.catalog.getD CatalogTables.empty with files := rows }
    (numbered.map templateOf) (numbered.map shapeOf) q.derived.sightings
  let report : Report := { q.report with
    rowsByTemplate := q.derived.rowsByTemplate
    templates := numbered.length
    templateServices := q.derived.sightings.length
    catalogFiles := rows.length
    catalogRows := (rows.map fun f => f.2.stats.rows).sum
    catalogBytes := (rows.map fun f => f.2.bytes).sum }
  refine ⟨⟨if options.reverify then report.reverify [] else report, q.installed, q.files, catalog⟩,
    ?_, ?_⟩
  · unfold restore
    rw [hgo]
    simp only [hlist]
    rw [← hq, hfiles, hrebuild, ← hfiles, hrehash]
    rfl
  · obtain ⟨hbad', hplaces', hrestored', htotals'⟩ :=
      @Report.reverified report hbad options.reverify q.installed
    rw [List.nil_append] at hinstalled
    have hall : q.derived = derivedAll (intactParts reader options source names) := hderived
    replace hrestored := hrestored.trans (Nat.zero_add _)
    replace hcount := hcount.trans (Nat.zero_add _)
    replace hbytes := hbytes.trans (Nat.zero_add _)
    exact
      { installed := hinstalled
        files := hfiles
        rows := by
          rw [hfiles]
          exact hrows
        totals := htotals'
        services := by
          rw [← hall]
          rfl
        templates := by
          rw [← hall]
          rfl
        restored := by
          rw [hrestored']
          exact hrestored
        places := by
          rw [hplaces']
          exact hplaces
        reverifyBad := by
          rw [hbad', ← htotals, ← hrestored, ← hcount, ← hbytes] }


/-! ## What a restore is -/

theorem nodup_known (h : names.Nodup) : (options.known names).Nodup := by
  have hinventoried : options.inventoried.Nodup := by
    unfold Options.inventoried
    cases options.inventory with
    | none => exact List.nodup_nil
    | some inventory => exact inventory.nodup
  refine h.append (hinventoried.filter _) fun n hn hmissing => ?_
  have hnot := (List.mem_filter.mp hmissing).2
  simp only [Bool.not_eq_true', List.contains_eq_mem, decide_eq_false_iff_not] at hnot
  exact hnot hn

theorem mem_known {n : Text} :
    n ∈ options.known names ↔ n ∈ names ∨ n ∈ options.inventoried := by
  rw [Options.known, List.mem_append, List.mem_filter]
  simp only [Bool.not_eq_true', List.contains_eq_mem, decide_eq_false_iff_not]
  tauto

/-- A report is good if every name is that of an installed part and the second pass found nothing
bad. -/
theorem Report.ok_iff {r : Report} {installed : List (Path × Text)}
    (h : (r.places installed).Nodup) :
    r.ok = true ↔
      (∀ n ∈ r.places installed, n ∈ installed.map Prod.snd) ∧ r.reverifyBad = [] := by
  have hsplit : r.places installed = installed.map Prod.snd ++ (r.hashMismatch
      ++ r.sizeMismatch ++ r.rowsMismatch ++ r.unreadable ++ r.fetchFailed ++ r.missing) := by
    simp only [places, List.append_assoc]
  have hok : r.ok = true ↔ (r.hashMismatch ++ r.sizeMismatch ++ r.rowsMismatch ++ r.unreadable
      ++ r.fetchFailed ++ r.missing) = [] ∧ r.reverifyBad = [] := by
    rw [ok, damaged, beq_iff_eq, ← List.length_eq_zero_iff, ← List.length_eq_zero_iff]
    simp only [List.length_append]
    omega
  rw [hsplit] at h ⊢
  rw [hok]
  refine and_congr_left fun _ => ?_
  constructor
  · intro hnil n hn
    rw [hnil, List.append_nil] at hn
    exact hn
  · intro hall
    rw [List.eq_nil_iff_forall_not_mem]
    intro n hn
    exact (List.nodup_append.mp h).2.2 n (hall n (List.mem_append_right _ hn)) n hn rfl

section

variable {target : Target β} {r : Restored β}

theorem Finished.once (h : Finished reader options source names target r) (hnames : names.Nodup) :
    (r.report.places r.installed).Nodup ∧
      (∀ n, n ∈ r.report.places r.installed ↔ n ∈ names ∨ n ∈ options.inventoried) ∧
      r.report.restored = r.installed.length := by
  refine ⟨h.places.nodup_iff.mpr (nodup_known hnames),
    fun n => h.places.mem_iff.trans mem_known, ?_⟩
  rw [h.restored, h.installed, List.length_map]

theorem Finished.intact (h : Finished reader options source names target r)
    (hnames : names.Nodup) :
    (∀ path n, (path, n) ∈ r.installed → ∃ b v,
      intact reader options source n = some (b, v) ∧ path = destination v n ∧
      Assoc.get r.files path = some b) ∧
    ∀ path, path ∉ r.installed.map Prod.fst →
      Assoc.get r.files path = Assoc.get target.files path := by
  have hpaths : ((intactParts reader options source names).map Part.path).Nodup :=
    nodup_paths hnames
  have hcontents : (((intactParts reader options source names).map fun x =>
      (x.path, x.content)).map Prod.fst).Nodup := by
    rw [List.map_map]
    exact hpaths
  rw [h.files, h.installed]
  constructor
  · intro path n hmem
    obtain ⟨x, hx, heq⟩ := List.mem_map.mp hmem
    cases heq
    refine ⟨x.content, x.found, (mem_intactParts.mp hx).2, rfl, ?_⟩
    rw [get_installAll _ hpaths, (Assoc.get_eq_some_iff hcontents).mpr
      (List.mem_map.mpr ⟨x, hx, rfl⟩), Option.some_or]
  · intro path hnot
    have hnone : Assoc.get ((intactParts reader options source names).map fun x =>
        (x.path, x.content)) path = none := by
      rw [← Option.not_isSome_iff_eq_none, Assoc.isSome_get, List.map_map]
      rw [List.map_map] at hnot
      exact hnot
    rw [get_installAll _ hpaths, hnone, Option.none_or]

/-- The report is good as it should be unless the second pass finds files of others. -/
theorem Finished.ok_iff (h : Finished reader options source names target r)
    (hnames : names.Nodup) :
    (r.report.ok = true ↔ ∀ n, n ∈ names ∨ n ∈ options.inventoried →
      n ∈ r.installed.map Prod.snd) ↔
    (options.reverify = true →
      (∀ n ∈ options.known names, n ∈ (intactParts reader options source names).map Part.name) →
      others target.files (intactParts reader options source names) = []) := by
  obtain ⟨hnodup, hmem, -⟩ := h.once hnames
  have hinstalled : r.installed.map Prod.snd
      = (intactParts reader options source names).map Part.name := by
    rw [h.installed, List.map_map]
    rfl
  rw [Report.ok_iff hnodup, h.reverifyBad, hinstalled]
  simp only [hmem, mem_known]
  rw [and_iff_left_iff_imp]
  exact ⟨fun hok hagain hall => hok hall hagain, fun hok hall hagain => hok hagain hall⟩

theorem Finished.counts_iff (h : Finished reader options source names target r)
    (hnodup : (target.files.map Prod.fst).Nodup) (hnames : names.Nodup) (htimed : reader.Timed) :
    (∀ key, Assoc.get r.catalog.templateServices key
      = Tally.ofList (Tally.timesOf key (sighted (leafRows reader (leaves r.files))))) ↔
    ∀ l ∈ others target.files (intactParts reader options source names),
      ∀ r ∈ rowsOf reader l.2.2, r.templateId = none := by
  rw [h.services, h.files]
  exact Restore.counts_iff htimed hnodup hnames

theorem Finished.templates_iff (h : Finished reader options source names target r) :
    (∀ k row, Assoc.get r.catalog.tables.templates k = some row →
      Genuine target.templates
        (restoredRows reader (intactParts reader options source names)) (identityOf row)) ↔
    ∀ (i id : ℕ) (tokens : List Text) (row : TemplateRow),
      (templateIds (restoredRows reader (intactParts reader options source names)))[i]?
        = some id →
      exemplarOf (restoredRows reader (intactParts reader options source names)) id
        = some tokens →
      Assoc.get target.templates (i + 1) = some row →
      Genuine target.templates
        (restoredRows reader (intactParts reader options source names))
        (joinTokens tokens, List.intercalate ['\t'] tokens, row.lineageId) := by
  have hempty : (Derived.empty.templates.map Prod.fst).Nodup := List.nodup_nil
  have htables := h.templates
  simp only at htables
  rw [htables]
  exact Restore.templates_iff (Derived.nodup_templates_parts hempty _) exemplar_parts _

end

/-- **A restore is sound and complete** if and only if what is in the target is harmless. -/
theorem restore_sound_iff {reader : Reader β} {options : Options} {source : PartSource β}
    {names : List Text} {ignored : ℕ} {target : Target β}
    (hlist : source.list = .ok (names, ignored))
    (hfree : options.force = true ∨ target.catalog = none ∧ target.files = [])
    (hnodup : (target.files.map Prod.fst).Nodup)
    (hreadable : Readable reader
      (others target.files (intactParts reader options source names)))
    (htimed : reader.Timed) :
    ∃ r, restore reader options source target = .ok r ∧
      (Sound reader options source names target r ↔
        Harmless reader options source names target) := by
  obtain ⟨hnames, -⟩ := PartSource.list_spec hlist
  obtain ⟨r, hr, hfinished⟩ :=
    @restore_finished β reader options source names ignored target hlist hfree hnodup hreadable
      htimed
  refine ⟨r, hr, ?_, ?_⟩
  · intro h
    exact
      { compared := (hfinished.ok_iff hnames).mp h.ok
        untemplated := (hfinished.counts_iff hnodup hnames htimed).mp h.counts
        lineage := hfinished.templates_iff.mp h.templates }
  · intro h
    have hlength := congrArg List.length hfinished.rows
    rw [List.length_map, List.length_map] at hlength
    exact
      { once := hfinished.once hnames
        installed := hfinished.intact hnames
        ok := (hfinished.ok_iff hnames).mpr h.compared
        files := ⟨hfinished.rows, by rw [hfinished.totals.1, hlength], hfinished.totals.2⟩
        counts := (hfinished.counts_iff hnodup hnames htimed).mpr h.untemplated
        templates := hfinished.templates_iff.mpr h.lineage }

/-- An empty target is harmless. -/
theorem harmless_empty {target : Target β} (hcatalog : target.catalog = none)
    (hfiles : target.files = []) : Harmless reader options source names target := by
  have hothers : others target.files (intactParts reader options source names) = [] := by
    rw [hfiles]
    rfl
  have htemplates : target.templates = [] := by
    rw [Target.templates, hcatalog]
    rfl
  refine ⟨fun _ _ => hothers, ?_, ?_⟩
  · intro l hl
    rw [hothers] at hl
    cases hl
  · intro rows i id tokens row hi htokens hrow
    rw [htemplates] at hrow
    cases hrow


/-! ## A forced restore -/

structure Sample where
  hash : ByteArr 32
  rows : List LogRecord

/-- A reader that takes times of 64 bits only. -/
def sampleReader : Reader Sample where
  sha256 b := b.hash
  len b := 100 * b.rows.length
  footer b := .ok ⟨fileStats b.rows, none, none, none⟩
  decode b := .ok (b.rows.filter fun r => r.timestampUnixNano < 2 ^ 64)

theorem timed_sampleReader : sampleReader.Timed := by
  intro b rows hrows r hr
  cases hrows
  exact of_decide_eq_true (List.mem_filter.mp hr).2

theorem length_sampleHash (c : UInt8) : (List.replicate 32 c).length = 32 :=
  List.length_replicate

/-- A file of one row. -/
def sampleFile (c : UInt8) (body : Text) (templateId : Option ℕ) : Sample :=
  ⟨⟨List.replicate 32 c, length_sampleHash c⟩,
    [{ LogRecord.new (.nowV7 1 (List.replicate 10 0) length_zeros) (500 * nanosPerHour) .INFO body
        with templateId := templateId }]⟩

def sampleName (b : Sample) : Text := simple b.hash.1 ++ parquetSuffix

/-- A directory with one part. -/
def sampleSource : PartSource Sample where
  entries := .ok [some (sampleName (sampleFile 1 "started".toList (some 5)))]
  fetch _ := .ok (sampleFile 1 "started".toList (some 5))

/-- A store with one file, and a catalog with these templates. -/
def sampleTarget (templateId : Option ℕ) (templates : List (ℕ × TemplateRow)) : Target Sample :=
  let b := sampleFile 2 "stopped".toList templateId
  { files := [(PartitionKey.dir ⟨defaultTenant, defaultIndex, 500, "info".toList,
      "node-a".toList⟩ ++ [sampleName b], b)]
    catalog := some ⟨[], [], ⟨templates, [], 0⟩⟩ }

def sampleOptions (reverify : Bool) : Options :=
  ⟨none, Agent.plainSettings.tenancy, true, reverify⟩

/-- The part is intact, but the report is not good. The row of the other file is not counted, and
the text of the part is given the lineage of the other template. -/
theorem forced_restore_unsound :
    let name := sampleName (sampleFile 1 "started".toList (some 5))
    let target := sampleTarget (some 7) [(1, ⟨"stopped".toList, "stopped".toList, 1, 0, 0, 7⟩)]
    ∃ r, restore sampleReader (sampleOptions true) sampleSource target = .ok r ∧
      r.installed.map Prod.snd = [name] ∧ r.report.ok = false ∧
      Assoc.get r.catalog.templateServices (defaultTenant, defaultIndex, 7, none) = none ∧
      (Assoc.get r.catalog.tables.templates 1).map identityOf
        = some ("started".toList, "started".toList, 7) ∧
      ¬ Sound sampleReader (sampleOptions true) sampleSource [name] target r := by
  intro name target
  have hends : ((restore sampleReader (sampleOptions true) sampleSource target).toOption.map
      fun r => (r.installed.map Prod.snd, r.report.ok)) = some ([name], false) := by
    decide +kernel
  have hcounts : ((restore sampleReader (sampleOptions true) sampleSource target).toOption.map
      fun r => Assoc.get r.catalog.templateServices (defaultTenant, defaultIndex, 7, none))
        = some none := by
    decide +kernel
  have hidentity : ((restore sampleReader (sampleOptions true) sampleSource target).toOption.map
      fun r => (Assoc.get r.catalog.tables.templates 1).map identityOf)
        = some (some ("started".toList, "started".toList, 7)) := by
    decide +kernel
  cases hr : restore sampleReader (sampleOptions true) sampleSource target with
  | error e =>
    rw [hr] at hends
    cases hends
  | ok r =>
    rw [hr] at hends hcounts hidentity
    have hboth := Prod.mk.inj (Option.some.inj hends)
    have hinstalled := hboth.1
    have hok := hboth.2
    have hservices := Option.some.inj hcounts
    have htemplate := Option.some.inj hidentity
    refine ⟨r, rfl, hinstalled, hok, hservices, htemplate, fun h => ?_⟩
    have hall : r.report.ok = true := h.ok.mpr fun n hn => by
      rw [hinstalled]
      exact hn.resolve_right List.not_mem_nil
    rw [hok] at hall
    cases hall

/-- Into a store with a file of no template a forced restore is sound. -/
theorem restore_sound_forced :
    let name := sampleName (sampleFile 1 "started".toList (some 5))
    ∃ r, restore sampleReader (sampleOptions false) sampleSource (sampleTarget none []) = .ok r ∧
      Sound sampleReader (sampleOptions false) sampleSource [name] (sampleTarget none []) r := by
  intro name
  have hnames : sampleSource.list.toOption = some ([name], 0) := by decide +kernel
  have hlist : sampleSource.list = .ok ([name], 0) := by
    cases h : sampleSource.list with
    | error why =>
      rw [h] at hnames
      cases hnames
    | ok listed =>
      rw [h] at hnames
      exact congrArg Except.ok (Option.some.inj hnames)
  have hnodup : ((sampleTarget none []).files.map Prod.fst).Nodup := List.nodup_singleton _
  have hreadable : Readable sampleReader (others (sampleTarget none []).files
      (intactParts sampleReader (sampleOptions false) sampleSource [name])) := fun l _ => ⟨_, rfl⟩
  have huntemplated : ∀ l ∈ others (sampleTarget none []).files
      (intactParts sampleReader (sampleOptions false) sampleSource [name]),
      ∀ r ∈ rowsOf sampleReader l.2.2, r.templateId = none := by
    decide +kernel
  obtain ⟨r, hr, hsound⟩ := @restore_sound_iff Sample sampleReader (sampleOptions false)
    sampleSource [name] 0 (sampleTarget none []) hlist (.inl rfl) hnodup hreadable
    timed_sampleReader
  refine ⟨r, hr, hsound.mpr ⟨fun h => absurd h Bool.false_ne_true, huntemplated, ?_⟩⟩
  intro rows i id tokens row hi htokens hrow
  cases hrow

end LogLess.Restore
