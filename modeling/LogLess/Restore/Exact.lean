import LogLess.Restore.Parts

/-!
# When a restore is sound and complete

Into an empty target a restore is sound and complete. Into one that holds files or templates it is
so unless something is there that it does not look at: files that are not of the restored parts,
whose rows the sightings leave out and which the second pass takes for damage, and templates whose
counters the restored ones get without their lineages.
-/

namespace LogLess.Restore

open Store

variable {β : Type} {reader : Reader β} {options : Options} {source : PartSource β}
  {names : List Text}

/-! ## The catalog -/

theorem exists_mapM_ok {α ε γ : Type} {f : α → Except ε γ} {ls : List α}
    (h : ∀ l ∈ ls, ∃ e, f l = .ok e) : ∃ es, ls.mapM f = .ok es ∧ ls.map f = es.map .ok := by
  induction ls with
  | nil => exact ⟨[], rfl, rfl⟩
  | cons l ls ih =>
    obtain ⟨e, he⟩ := h l List.mem_cons_self
    obtain ⟨es, hes, hmap⟩ := ih fun l' hl' => h l' (List.mem_cons_of_mem l hl')
    refine ⟨e :: es, ?_, ?_⟩
    · rw [List.mapM_cons, he, hes]
      rfl
    · rw [List.map_cons, List.map_cons, he, hmap]

theorem foldl_insert_eq {κ ν : Type} [DecidableEq κ] {table es : List (κ × ν)}
    (h : ((table ++ es).map Prod.fst).Nodup) :
    es.foldl (fun table e => Assoc.insert table e.1 e.2) table = table ++ es := by
  induction es generalizing table with
  | nil => exact (List.append_nil table).symm
  | cons e es ih =>
    have hnot : e.1 ∉ table.map Prod.fst := by
      rw [List.map_append, List.map_cons] at h
      exact fun hmem => (List.nodup_append.mp h).2.2 e.1 hmem e.1 List.mem_cons_self rfl
    rw [List.foldl_cons, Assoc.insert_of_notMem hnot, ih (by simpa using h), List.append_assoc]
    rfl

/-- The footers of some leaves can be read. -/
def Readable (reader : Reader β) (ls : List (Path × PartitionKey × β)) : Prop :=
  ∀ l ∈ ls, ∃ footer, reader.footer l.2.2 = .ok footer

/-- A rebuild lists the leaves with the numbers of their footers. -/
theorem rebuild_spec (c : CatalogTables) {files : List (Path × β)}
    (hnodup : (files.map Prod.fst).Nodup) (hreadable : Readable reader (leaves files)) :
    ∃ rows, c.rebuild reader files = .ok { c with files := rows } ∧
      (leaves files).map (fileRow reader) = rows.map .ok := by
  obtain ⟨rows, hrows, hmap⟩ := @exists_mapM_ok _ RestoreError _ (fileRow reader) (leaves files)
    (fun l hl => by
      obtain ⟨footer, hfooter⟩ := hreadable l hl
      exact ⟨_, by rw [fileRow, hfooter]⟩)
  have hpath : ∀ {l : Path × PartitionKey × β} {e : Path × FileRow}, fileRow reader l = .ok e →
      e.1 = l.1 := by
    intro l e he
    unfold fileRow at he
    split at he
    · cases he
      rfl
    · cases he
  have hkeys : rows.map Prod.fst = (leaves files).map Prod.fst := by
    clear hrows
    generalize leaves files = ls at hmap
    induction ls generalizing rows with
    | nil =>
      cases rows with
      | nil => rfl
      | cons e rows => cases hmap
    | cons l ls ih =>
      cases rows with
      | nil => cases hmap
      | cons e rows =>
        rw [List.map_cons, List.map_cons, List.cons.injEq] at hmap
        rw [List.map_cons, List.map_cons, hpath hmap.1, ih rows hmap.2]
  refine ⟨rows, ?_, hmap⟩
  have hinsert := @foldl_insert_eq Path FileRow _ [] rows (by
    rw [List.nil_append, hkeys]
    exact nodup_leaves hnodup)
  rw [CatalogTables.rebuild, hrows]
  show Except.ok { c with files := rows.foldl _ [] } = _
  rw [hinsert]
  rfl

theorem readable_installAll (htimed : reader.Timed) {files : List (Path × β)}
    (hnodup : (files.map Prod.fst).Nodup) (hnames : names.Nodup)
    (hreadable : Readable reader (others files (intactParts reader options source names))) :
    Readable reader (leaves (installAll files (intactParts reader options source names))) := by
  intro l hl
  rcases List.mem_append.mp ((leaves_installAll htimed hnodup hnames).mem_iff.mp hl) with hl | hl
  · obtain ⟨x, hx, rfl⟩ := List.mem_map.mp hl
    obtain ⟨footer, -, hfooter, -⟩ := (passes_of_mem hx).found
    exact ⟨footer, hfooter⟩
  · exact hreadable l hl

/-! ## What a restore is to do -/

/-- Every listed or inventoried part. -/
def Options.known (o : Options) (names : List Text) : List Text :=
  names ++ o.inventoried.filter fun n => !(names.contains n)

/-- The rows of some leaves, by partition. -/
def leafRows (reader : Reader β) (ls : List (Path × PartitionKey × β)) :
    List (PartitionKey × List LogRecord) := ls.map fun l => (l.2.1, rowsOf reader l.2.2)

/-- The text, the tokens and the lineage of a template. -/
def identityOf (row : TemplateRow) : Text × Text × ℕ := (row.text, row.tokens, row.lineageId)

/-- They belong to a template there was, or to one of the restored rows. -/
def Genuine (old : List (ℕ × TemplateRow)) (rows : List LogRecord) (x : Text × Text × ℕ) : Prop :=
  (∃ k row, Assoc.get old k = some row ∧ identityOf row = x) ∨
    ∃ id tokens, exemplarOf rows id = some tokens ∧
      (joinTokens tokens, List.intercalate ['\t'] tokens, id) = x

/-- The rows of the miner's table before a restore. -/
def Target.templates (t : Target β) : List (ℕ × TemplateRow) :=
  (t.catalog.getD .empty).tables.templates

/-- The rows of the intact parts. -/
def restoredRows (reader : Reader β) (parts : List (Part β)) : List LogRecord :=
  parts.flatMap fun x => rowsOf reader x.content

/-- **A restore is sound and complete.** -/
structure Sound (reader : Reader β) (options : Options) (source : PartSource β)
    (names : List Text) (target : Target β) (r : Restored β) : Prop where
  /-- Every listed or inventoried part is in one list, and nothing else is. -/
  once : (r.report.places r.installed).Nodup ∧
    (∀ n, n ∈ r.report.places r.installed ↔ n ∈ names ∨ n ∈ options.inventoried) ∧
    r.report.restored = r.installed.length
  /-- What is installed is intact, and other files stay as they are. -/
  installed : (∀ path n, (path, n) ∈ r.installed → ∃ b v,
      intact reader options source n = some (b, v) ∧ path = destination v n ∧
      Assoc.get r.files path = some b) ∧
    ∀ path, path ∉ r.installed.map Prod.fst →
      Assoc.get r.files path = Assoc.get target.files path
  ok : r.report.ok = true ↔ ∀ n, n ∈ names ∨ n ∈ options.inventoried →
    n ∈ r.installed.map Prod.snd
  /-- The rows of files and their totals are those of the leaves of the store. -/
  files : (leaves r.files).map (fileRow reader) = r.catalog.files.map .ok ∧
    r.report.catalogFiles = (leaves r.files).length ∧
    r.report.catalogRows = (r.catalog.files.map fun f => f.2.stats.rows).sum ∧
    r.report.catalogBytes = (r.catalog.files.map fun f => f.2.bytes).sum
  counts : ∀ key, Assoc.get r.catalog.templateServices key
    = Tally.ofList (Tally.timesOf key (sighted (leafRows reader (leaves r.files))))
  templates : ∀ k row, Assoc.get r.catalog.tables.templates k = some row →
    Genuine target.templates
      (restoredRows reader (intactParts reader options source names)) (identityOf row)

/-- What is in the target is nothing that a restore does not look at. -/
structure Harmless (reader : Reader β) (options : Options) (source : PartSource β)
    (names : List Text) (target : Target β) : Prop where
  /-- The second pass compares the catalog with the parts. -/
  compared : options.reverify = true →
    (∀ n ∈ options.known names, n ∈ (intactParts reader options source names).map Part.name) →
    others target.files (intactParts reader options source names) = []
  /-- The sightings are those of the parts. -/
  untemplated : ∀ l ∈ others target.files (intactParts reader options source names),
    ∀ r ∈ rowsOf reader l.2.2, r.templateId = none
  /-- A template that gets the counter of a row gets its lineage too. -/
  lineage : let rows := restoredRows reader (intactParts reader options source names)
    ∀ (i id : ℕ) (tokens : List Text) (row : TemplateRow), (templateIds rows)[i]? = some id →
      exemplarOf rows id = some tokens → Assoc.get target.templates (i + 1) = some row →
      Genuine target.templates rows
        (joinTokens tokens, List.intercalate ['\t'] tokens, row.lineageId)

/-! ## The sightings -/

theorem sighted_eq_nil {rows : List (PartitionKey × List LogRecord)} :
    sighted rows = [] ↔ ∀ x ∈ rows, ∀ r ∈ x.2, r.templateId = none := by
  unfold sighted
  rw [List.flatMap_eq_nil_iff]
  refine forall_congr' fun x => forall_congr' fun _ => ?_
  rw [List.filterMap_eq_nil_iff]
  exact forall_congr' fun r => forall_congr' fun _ => Option.map_eq_none_iff

theorem timesOf_eq_nil {seen : List (SightingKey × ℤ)} :
    (∀ key, Tally.timesOf key seen = []) ↔ seen = [] := by
  constructor
  · intro h
    rw [List.eq_nil_iff_forall_not_mem]
    intro e he
    have hmem : e.2 ∈ Tally.timesOf e.1 seen :=
      List.mem_map.mpr ⟨e, List.mem_filter.mpr ⟨he, by simp⟩, rfl⟩
    rw [h e.1] at hmem
    cases hmem
  · intro h key
    rw [h]
    rfl

theorem nodup_sightings_parts {d : Derived} (h : (d.sightings.map Prod.fst).Nodup)
    (ds : List Derived) : ((ds.foldl Derived.merge d).sightings.map Prod.fst).Nodup := by
  induction ds generalizing d with
  | nil => exact h
  | cons other ds ih =>
    refine ih ?_
    rw [Derived.sightings_merge]
    exact Tally.nodup_foldl_record h _

/-- The parts with their partitions and rows. -/
def partRows (reader : Reader β) (parts : List (Part β)) : List (PartitionKey × List LogRecord) :=
  parts.map fun x => (x.found.key, rowsOf reader x.content)

theorem derived_parts :
    (intactParts reader options source names).map (fun x => x.found.derived)
      = (partRows reader (intactParts reader options source names)).map fun x =>
        x.2.foldl (Derived.addRow x.1.tenant x.1.index) .empty := by
  rw [partRows, List.map_map]
  exact List.map_congr_left fun x hx => derived_part hx

/-- **The sightings are the tallies of the store** if the other leaves have no templates. -/
theorem counts_iff (htimed : reader.Timed) {files : List (Path × β)}
    (hfiles : (files.map Prod.fst).Nodup) (hnames : names.Nodup) :
    let parts := intactParts reader options source names
    let derived := (parts.map fun x => x.found.derived).foldl Derived.merge .empty
    (∀ key, Assoc.get (derived.sightings.foldl Tally.record []) key
      = Tally.ofList (Tally.timesOf key
        (sighted (leafRows reader (leaves (installAll files parts)))))) ↔
    ∀ l ∈ others files parts, ∀ r ∈ rowsOf reader l.2.2, r.templateId = none := by
  intro parts derived
  have hempty : (Derived.empty.sightings.map Prod.fst).Nodup := List.nodup_nil
  have hleft : ∀ key, Assoc.get (derived.sightings.foldl Tally.record []) key
      = Tally.ofList (Tally.timesOf key (sighted (partRows reader parts))) := by
    intro key
    have hjoin := Tally.get_foldl_join ([] : List (SightingKey × (ℕ × ℤ × ℤ)))
      (nodup_sightings_parts hempty (parts.map fun x => x.found.derived)) key
    have hparts := Derived.get_sightings_parts .empty (partRows reader parts) key
    rw [hjoin, derived_parts, hparts, Assoc.get_nil, Tally.join_none_left]
    exact Tally.join_none_left _
  have hperm : (sighted (leafRows reader (leaves (installAll files parts)))).Perm
      (sighted (partRows reader parts) ++ sighted (leafRows reader (others files parts))) := by
    have hleaves : (leafRows reader (leaves (installAll files parts))).Perm
        (partRows reader parts ++ leafRows reader (others files parts)) := by
      have hall := @leaves_installAll β reader options source names htimed files hfiles hnames
      have hmap := hall.map fun l => (l.2.1, rowsOf reader l.2.2)
      rw [List.map_append, List.map_map] at hmap
      exact hmap
    have hflat := hleaves.flatMap_right fun x : PartitionKey × List LogRecord =>
      x.2.filterMap (sightingOf x.1.tenant x.1.index)
    rw [List.flatMap_append] at hflat
    exact hflat
  have hright : ∀ key, Tally.ofList (Tally.timesOf key
        (sighted (leafRows reader (leaves (installAll files parts)))))
      = Tally.ofList (Tally.timesOf key (sighted (partRows reader parts))
        ++ Tally.timesOf key (sighted (leafRows reader (others files parts)))) := by
    intro key
    rw [← Tally.timesOf_append]
    exact Tally.ofList_perm (Tally.timesOf_perm key hperm)
  have hkey : ∀ key, Assoc.get (derived.sightings.foldl Tally.record []) key
        = Tally.ofList (Tally.timesOf key
          (sighted (leafRows reader (leaves (installAll files parts))))) ↔
      Tally.timesOf key (sighted (leafRows reader (others files parts))) = [] := by
    intro key
    rw [hleft, hright, eq_comm]
    exact Tally.ofList_append_eq_left
  rw [forall_congr' hkey, timesOf_eq_nil, sighted_eq_nil, leafRows, List.forall_mem_map]

/-! ## The templates -/

theorem exemplar_parts (id : ℕ) :
    let parts := intactParts reader options source names
    ((parts.map fun x => x.found.derived).foldl Derived.merge .empty).exemplar id
      = exemplarOf (restoredRows reader parts) id := by
  intro parts
  have hrows : restoredRows reader parts = (partRows reader parts).flatMap Prod.snd := by
    rw [partRows, List.flatMap_map]
    rfl
  rw [derived_parts, Derived.exemplar_parts, hrows]
  exact Option.none_or

/-- **Every row of the miner's table is of one template** if the counters of the restored
templates are free, or have their lineages. -/
theorem templates_iff {old : TemplateTables} {d : Derived} {rows : List LogRecord}
    (hnodup : (d.templates.map Prod.fst).Nodup)
    (hexemplar : ∀ id, d.exemplar id = exemplarOf rows id) (shapes : List ShapeRow) :
    (∀ k row, Assoc.get
        ((old.saveTemplates (d.numbered.map templateOf)).registerShapes shapes).templates k
          = some row → Genuine old.templates rows (identityOf row)) ↔
    ∀ (i id : ℕ) (tokens : List Text) (row : TemplateRow), (templateIds rows)[i]? = some id →
      exemplarOf rows id = some tokens → Assoc.get old.templates (i + 1) = some row →
      Genuine old.templates rows
        (joinTokens tokens, List.intercalate ['\t'] tokens, row.lineageId) := by
  have hids : ((d.numbered.map templateOf).map Template.id).Nodup := by
    rw [List.map_map]
    exact nodup_numbered d
  have hget := get_saveTemplates old hids
  have hone : ∀ x y : Template, x ∈ d.numbered.map templateOf → y ∈ d.numbered.map templateOf →
      x.id = y.id → x = y := fun x y hx hy heq => List.inj_on_of_nodup_map hids hx hy heq
  rw [templates_registerShapes]
  constructor
  · intro h i id tokens row hi htokens hrow
    obtain ⟨acc, hmem, hacc⟩ := exists_mem_numbered hnodup hexemplar hi
    rw [hacc, Option.some.injEq] at htokens
    have hin : templateOf (i + 1, id, acc) ∈ d.numbered.map templateOf := List.mem_map_of_mem hmem
    have hfind : (d.numbered.map templateOf).find? (fun x => x.id == i + 1)
        = some (templateOf (i + 1, id, acc)) := by
      cases hy : (d.numbered.map templateOf).find? fun x => x.id == i + 1 with
      | none => exact absurd rfl (ne_of_beq_false (Bool.eq_false_iff.mpr
          (List.find?_eq_none.mp hy _ hin)))
      | some y =>
        have hbeq := List.find?_some hy
        have hyid : y.id = i + 1 := by simpa using hbeq
        rw [hone y _ (List.mem_of_find?_eq_some hy) hin hyid]
    have hsaved := h (i + 1) (savedRow (some row) (templateOf (i + 1, id, acc))) (by
      rw [hget, hfind, hrow]
      rfl)
    rw [← htokens]
    exact hsaved
  · intro h k row hrow
    rw [hget] at hrow
    cases hfind : (d.numbered.map templateOf).find? fun x => x.id == k with
    | none =>
      rw [hfind] at hrow
      exact .inl ⟨k, row, hrow, rfl⟩
    | some x =>
      rw [hfind, Option.map_some, Option.some_or, Option.some.injEq] at hrow
      obtain ⟨e, he, rfl⟩ := List.mem_map.mp (List.mem_of_find?_eq_some hfind)
      obtain ⟨i, hi, hid, htokens⟩ := mem_numbered hnodup hexemplar he
      have hk : e.1 = k := by
        have hbeq := List.find?_some hfind
        simpa [templateOf] using hbeq
      cases hold : Assoc.get old.templates k with
      | none =>
        rw [hold] at hrow
        rw [← hrow]
        exact .inr ⟨e.2.1, e.2.2.exemplar, htokens, rfl⟩
      | some row' =>
        rw [hold] at hrow
        rw [← hrow]
        exact h i e.2.1 e.2.2.exemplar row' hid htokens (by rw [← hi, hk, hold])

end LogLess.Restore
