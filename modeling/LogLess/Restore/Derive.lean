import LogLess.Restore.Install

/-!
# What restored rows tell

The sightings of all parts are the tallies of their rows, and the exemplar of a template is the
first row that has it.
-/

namespace LogLess.Restore

open Store

/-! ## Sightings -/

/-- The key of a sighting and the time, for a row that has a template. -/
def sightingOf (tenant index : Text) (r : LogRecord) : Option (SightingKey × ℤ) :=
  r.templateId.map fun id => ((tenant, index, id, r.service), toI64 r.observedUnixNano)

theorem sighted_cons (x : PartitionKey × List LogRecord)
    (rows : List (PartitionKey × List LogRecord)) :
    sighted (x :: rows) = x.2.filterMap (sightingOf x.1.tenant x.1.index) ++ sighted rows :=
  List.flatMap_cons

namespace Derived

variable (d : Derived)

theorem sightings_addRow (tenant index : Text) (r : LogRecord) :
    (d.addRow tenant index r).sightings
      = ((sightingOf tenant index r).toList.map fun e => (e.1, (1, e.2, e.2))).foldl
        Tally.record d.sightings := by
  unfold addRow sightingOf
  cases r.templateId with
  | none => rfl
  | some id =>
    simp only [Option.map_some, Option.toList_some, List.map_cons, List.map_nil, List.foldl_cons,
      List.foldl_nil]
    unfold Tally.record
    cases Assoc.get d.sightings (tenant, index, id, r.service) with
    | none => simp
    | some s => rfl

theorem sightings_addRows (tenant index : Text) (rows : List LogRecord) :
    (rows.foldl (addRow tenant index) d).sightings
      = ((rows.filterMap (sightingOf tenant index)).map fun e => (e.1, (1, e.2, e.2))).foldl
        Tally.record d.sightings := by
  induction rows generalizing d with
  | nil => rfl
  | cons r rows ih =>
    rw [List.foldl_cons, ih, sightings_addRow, ← List.foldl_append, ← List.map_append]
    cases hr : sightingOf tenant index r with
    | none => rw [List.filterMap_cons_none hr]; rfl
    | some e => rw [List.filterMap_cons_some hr]; rfl

theorem mergeSighting_eq (sightings : List (SightingKey × ℕ × ℤ × ℤ))
    (other : SightingKey × ℕ × ℤ × ℤ) :
    mergeSighting sightings other = Tally.record sightings other := by
  unfold mergeSighting Tally.record
  simp only
  cases Assoc.get sightings other.1 with
  | none => simp
  | some s => rfl

theorem sightings_merge (other : Derived) :
    (d.merge other).sightings = other.sightings.foldl Tally.record d.sightings := by
  show other.sightings.foldl mergeSighting d.sightings = _
  rw [show mergeSighting = Tally.record from funext fun s => funext (mergeSighting_eq s)]

/-- The sightings of one part. -/
theorem get_sightings_rows (key : PartitionKey) (rows : List LogRecord) (at_ : SightingKey) :
    Assoc.get (rows.foldl (addRow key.tenant key.index) empty).sightings at_
      = Tally.ofList (Tally.timesOf at_ (sighted [(key, rows)])) := by
  rw [sightings_addRows, Tally.get_foldl_record, sighted_cons]
  show Tally.join (Assoc.get [] at_) _ = _
  rw [Assoc.get_nil, Tally.join_none_left]
  show _ = Tally.ofList (Tally.timesOf at_ (_ ++ []))
  rw [List.append_nil]

theorem nodup_sightings_rows (tenant index : Text) (rows : List LogRecord) :
    ((rows.foldl (addRow tenant index) empty).sightings.map Prod.fst).Nodup := by
  have hempty : (empty.sightings.map Prod.fst).Nodup := List.nodup_nil
  rw [sightings_addRows]
  exact Tally.nodup_foldl_record hempty _

/-- **The sightings of some parts together.** -/
theorem get_sightings_parts (parts : List (PartitionKey × List LogRecord)) (at_ : SightingKey) :
    Assoc.get ((parts.map fun x => x.2.foldl (addRow x.1.tenant x.1.index) empty).foldl merge
        d).sightings at_
      = Tally.join (Assoc.get d.sightings at_)
        (Tally.ofList (Tally.timesOf at_ (sighted parts))) := by
  induction parts generalizing d with
  | nil => exact (Tally.join_none_right _).symm
  | cons x parts ih =>
    have hone := get_sightings_rows x.1 x.2 at_
    have hjoin := Tally.get_foldl_join d.sightings
      (nodup_sightings_rows x.1.tenant x.1.index x.2) at_
    rw [List.map_cons, List.foldl_cons, ih, sightings_merge, hjoin, hone, Tally.join_assoc,
      ← Tally.ofList_append, ← Tally.timesOf_append, sighted_cons, sighted_cons]
    simp only [sighted, List.flatMap_nil, List.append_nil]

end Derived

/-! ## Templates -/

/-- The tokens that stand for a template: those of the first row that has it. -/
def exemplarOf (rows : List LogRecord) (id : ℕ) : Option (List Text) :=
  (rows.find? fun r => r.templateId == some id).map fun r => (Mask.maskLine r.body).1

theorem exemplarOf_append (rows more : List LogRecord) (id : ℕ) :
    exemplarOf (rows ++ more) id = (exemplarOf rows id).or (exemplarOf more id) := by
  rw [exemplarOf, List.find?_append, exemplarOf, exemplarOf]
  cases rows.find? fun r => r.templateId == some id <;> rfl

theorem exemplarOf_cons (r : LogRecord) (rows : List LogRecord) (id : ℕ) :
    exemplarOf (r :: rows) id
      = (if r.templateId = some id then some (Mask.maskLine r.body).1 else none).or
        (exemplarOf rows id) := by
  rw [exemplarOf, List.find?_cons]
  by_cases h : r.templateId = some id
  · simp [h]
  · have hbeq : (r.templateId == some id) = false := by simpa using h
    rw [hbeq, if_neg h, Option.none_or, exemplarOf]

namespace Derived

variable (d : Derived)

/-- The exemplar of a template, if there is the template. -/
def exemplar (id : ℕ) : Option (List Text) :=
  (Assoc.get d.templates id).map TemplateAcc.exemplar

theorem exemplar_addRow (tenant index : Text) (r : LogRecord) (id : ℕ) :
    (d.addRow tenant index r).exemplar id = (d.exemplar id).or (exemplarOf [r] id) := by
  rw [exemplarOf_cons]
  unfold exemplar addRow
  cases hid : r.templateId with
  | none => simp [exemplarOf]
  | some k =>
    simp only [Assoc.get_insert]
    by_cases hk : id = k
    · subst hk
      cases Assoc.get d.templates id <;> simp
    · rw [if_neg hk, if_neg (by simpa using Ne.symm hk)]
      simp [exemplarOf]

theorem exemplar_addRows (tenant index : Text) (rows : List LogRecord) (id : ℕ) :
    (rows.foldl (addRow tenant index) d).exemplar id
      = (d.exemplar id).or (exemplarOf rows id) := by
  induction rows generalizing d with
  | nil => exact (Option.or_none).symm
  | cons r rows ih =>
    rw [List.foldl_cons, ih, exemplar_addRow, Option.or_assoc, ← exemplarOf_append]
    rfl

theorem nodup_templates_addRows {d : Derived} (h : (d.templates.map Prod.fst).Nodup)
    (tenant index : Text) (rows : List LogRecord) :
    ((rows.foldl (addRow tenant index) d).templates.map Prod.fst).Nodup := by
  induction rows generalizing d with
  | nil => exact h
  | cons r rows ih =>
    refine ih ?_
    unfold addRow
    cases r.templateId with
    | none => exact h
    | some id => exact Assoc.nodup_keys_insert h _ _

theorem nodup_foldl_mergeTemplate {templates : List (ℕ × TemplateAcc)}
    (h : (templates.map Prod.fst).Nodup) (others : List (ℕ × TemplateAcc)) :
    ((others.foldl mergeTemplate templates).map Prod.fst).Nodup := by
  induction others generalizing templates with
  | nil => exact h
  | cons other others ih =>
    refine ih ?_
    unfold mergeTemplate
    split <;> exact Assoc.nodup_keys_insert h _ _

theorem exemplar_mergeTemplates (templates : List (ℕ × TemplateAcc))
    {others : List (ℕ × TemplateAcc)} (h : (others.map Prod.fst).Nodup) (id : ℕ) :
    (Assoc.get (others.foldl mergeTemplate templates) id).map TemplateAcc.exemplar
      = ((Assoc.get templates id).map TemplateAcc.exemplar).or
        ((Assoc.get others id).map TemplateAcc.exemplar) := by
  induction others generalizing templates with
  | nil => exact (Option.or_none).symm
  | cons other others ih =>
    rw [List.map_cons, List.nodup_cons] at h
    have hone : (Assoc.get (mergeTemplate templates other) id).map TemplateAcc.exemplar
        = ((Assoc.get templates id).map TemplateAcc.exemplar).or
          (if id = other.1 then some other.2.exemplar else none) := by
      unfold mergeTemplate
      by_cases hk : id = other.1
      · subst hk
        cases hget : Assoc.get templates other.1 with
        | none =>
          simp only
          rw [Assoc.get_insert, if_pos rfl]
          simp
        | some mine =>
          simp only
          rw [Assoc.get_insert, if_pos rfl]
          simp
      · rw [if_neg hk, Option.or_none]
        split <;> rw [Assoc.get_insert, if_neg hk]
    rw [List.foldl_cons, ih _ h.2, hone, Option.or_assoc]
    congr 1
    by_cases hk : id = other.1
    · simp [Assoc.get, hk]
    · rw [if_neg hk, Option.none_or]
      simp [Assoc.get, Ne.symm hk]

/-- **The exemplars of some parts together** are those of all their rows. -/
theorem exemplar_parts (parts : List (PartitionKey × List LogRecord)) (id : ℕ) :
    ((parts.map fun x => x.2.foldl (addRow x.1.tenant x.1.index) empty).foldl merge d).exemplar id
      = (d.exemplar id).or (exemplarOf (parts.flatMap Prod.snd) id) := by
  induction parts generalizing d with
  | nil => exact (Option.or_none).symm
  | cons x parts ih =>
    have hempty : (empty.templates.map Prod.fst).Nodup := List.nodup_nil
    have hnodup := nodup_templates_addRows hempty x.1.tenant x.1.index x.2
    have hmerge : (d.merge (x.2.foldl (addRow x.1.tenant x.1.index) empty)).exemplar id
        = (d.exemplar id).or
          ((x.2.foldl (addRow x.1.tenant x.1.index) empty).exemplar id) :=
      exemplar_mergeTemplates d.templates hnodup id
    rw [List.map_cons, List.foldl_cons, ih, hmerge, exemplar_addRows, Option.or_assoc,
      List.flatMap_cons, exemplarOf_append]
    rfl

theorem nodup_templates_parts {d : Derived} (h : (d.templates.map Prod.fst).Nodup)
    (others : List Derived) : ((others.foldl merge d).templates.map Prod.fst).Nodup := by
  induction others generalizing d with
  | nil => exact h
  | cons other others ih => exact ih (nodup_foldl_mergeTemplate h other.templates)

end Derived

/-! ## Counters -/

/-- The template ids of some rows, in order. -/
def templateIds (rows : List LogRecord) : List ℕ :=
  (rows.filterMap LogRecord.templateId).dedup.insertionSort (· ≤ ·)

theorem isSome_exemplarOf {rows : List LogRecord} {id : ℕ} :
    (exemplarOf rows id).isSome = true ↔ id ∈ rows.filterMap LogRecord.templateId := by
  rw [exemplarOf, Option.isSome_map, List.find?_isSome, List.mem_filterMap]
  simp

theorem pairwise_lt_insertionSort {ids : List ℕ} (h : ids.Nodup) :
    (ids.insertionSort (· ≤ ·)).Pairwise (· < ·) := by
  have hsorted := List.pairwise_insertionSort (· ≤ ·) ids
  have hnodup : (ids.insertionSort (· ≤ ·)).Nodup :=
    (List.perm_insertionSort (· ≤ ·) ids).nodup_iff.mpr h
  exact (hsorted.and hnodup).imp fun hle => lt_of_le_of_ne hle.1 hle.2

variable {d : Derived} {rows : List LogRecord}

/-- The templates are numbered in the order of their ids. -/
theorem map_fst_sorted (hnodup : (d.templates.map Prod.fst).Nodup)
    (h : ∀ id, d.exemplar id = exemplarOf rows id) :
    (Lists.sortByKey Prod.fst d.templates).map Prod.fst = templateIds rows := by
  have hperm := Lists.perm_sortByKey Prod.fst d.templates
  have hsorted : ((Lists.sortByKey Prod.fst d.templates).map Prod.fst).Pairwise (· < ·) := by
    have hle := List.pairwise_map.mpr (Lists.pairwise_sortByKey Prod.fst d.templates)
    exact (hle.and ((hperm.map Prod.fst).nodup_iff.mpr hnodup)).imp
      fun hle => lt_of_le_of_ne hle.1 hle.2
  refine @Lists.eq_of_pairwise_lt _ _ _ id _ _ hsorted
    (pairwise_lt_insertionSort (List.nodup_dedup _)) fun id => ?_
  rw [(hperm.map Prod.fst).mem_iff, ← Assoc.isSome_get, templateIds, List.mem_insertionSort,
    List.mem_dedup, ← isSome_exemplarOf, ← h, Derived.exemplar, Option.isSome_map]

theorem mem_numbered (hnodup : (d.templates.map Prod.fst).Nodup)
    (h : ∀ id, d.exemplar id = exemplarOf rows id) {e : ℕ × ℕ × TemplateAcc}
    (he : e ∈ d.numbered) :
    ∃ i, e.1 = i + 1 ∧ (templateIds rows)[i]? = some e.2.1 ∧
      exemplarOf rows e.2.1 = some e.2.2.exemplar := by
  obtain ⟨⟨⟨id, acc⟩, i⟩, hmem, rfl⟩ := List.mem_map.mp he
  have hget := List.mem_zipIdx_iff_getElem?.mp hmem
  refine ⟨i, rfl, ?_, ?_⟩
  · rw [← map_fst_sorted hnodup h, List.getElem?_map, hget]
    rfl
  · have hin : (id, acc) ∈ d.templates :=
      (Lists.perm_sortByKey Prod.fst d.templates).mem_iff.mp (List.mem_of_getElem? hget)
    rw [← h, Derived.exemplar, (Assoc.get_eq_some_iff hnodup).mpr hin]
    rfl

theorem exists_mem_numbered (hnodup : (d.templates.map Prod.fst).Nodup)
    (h : ∀ id, d.exemplar id = exemplarOf rows id) {i id : ℕ}
    (hi : (templateIds rows)[i]? = some id) :
    ∃ acc, (i + 1, id, acc) ∈ d.numbered ∧ exemplarOf rows id = some acc.exemplar := by
  rw [← map_fst_sorted hnodup h, List.getElem?_map] at hi
  obtain ⟨⟨id', acc⟩, hget, rfl⟩ := Option.map_eq_some_iff.mp hi
  have hmem : (i + 1, id', acc) ∈ d.numbered :=
    List.mem_map.mpr ⟨((id', acc), i), List.mem_zipIdx_iff_getElem?.mpr hget, rfl⟩
  obtain ⟨-, -, -, hexemplar⟩ := mem_numbered hnodup h hmem
  exact ⟨acc, hmem, hexemplar⟩

theorem nodup_numbered (d : Derived) : (d.numbered.map Prod.fst).Nodup := by
  have hfst : d.numbered.map Prod.fst
      = ((Lists.sortByKey Prod.fst d.templates).zipIdx.map Prod.snd).map (· + 1) := by
    rw [Derived.numbered, List.map_map, List.map_map]
    rfl
  rw [hfst, List.zipIdx_map_snd]
  exact (List.nodup_range' ..).map (add_left_injective 1)

/-! ## The miner's table -/

/-- The row that `save_templates` leaves for a template. -/
def savedRow (old : Option TemplateRow) (template : Template) : TemplateRow where
  text := template.text
  tokens := List.intercalate ['\t'] template.tokens
  count := template.count
  firstSeen := (old.map TemplateRow.firstSeen).getD template.firstSeenUnixSecs
  lastSeen := template.lastSeenUnixSecs
  lineageId := (old.map TemplateRow.lineageId).getD template.lineageId

theorem get_saveTemplates (t : TemplateTables) {ts : List Template}
    (hnodup : (ts.map Template.id).Nodup) (k : ℕ) :
    Assoc.get (t.saveTemplates ts).templates k
      = ((ts.find? fun x => x.id == k).map (savedRow (Assoc.get t.templates k))).or
        (Assoc.get t.templates k) := by
  induction ts generalizing t with
  | nil => rfl
  | cons x ts ih =>
    rw [List.map_cons, List.nodup_cons] at hnodup
    have hone : Assoc.get (t.saveTemplate x).templates k
        = if k = x.id then some (savedRow (Assoc.get t.templates x.id) x)
          else Assoc.get t.templates k := Assoc.get_insert _ _ _ _
    have hrest := ih (t.saveTemplate x) hnodup.2
    show Assoc.get ((t.saveTemplate x).saveTemplates ts).templates k = _
    rw [hrest, hone, List.find?_cons]
    by_cases hk : k = x.id
    · have hnone : (ts.find? fun y => y.id == k) = none := by
        rw [List.find?_eq_none]
        intro y hy hyk
        have hid : y.id = x.id := by rw [← hk]; simpa using hyk
        exact hnodup.1 (hid ▸ List.mem_map_of_mem hy)
      have hbeq : (x.id == k) = true := by simpa using hk.symm
      rw [hnone, hbeq, if_pos hk, hk]
      rfl
    · have hbeq : (x.id == k) = false := by simpa using Ne.symm hk
      rw [hbeq, if_neg hk]

theorem templates_registerShapes (t : TemplateTables) (shapes : List ShapeRow) :
    (t.registerShapes shapes).templates = t.templates := by
  induction shapes generalizing t with
  | nil => rfl
  | cons s shapes ih =>
    refine (ih (t.registerShape s)).trans ?_
    unfold TemplateTables.registerShape
    split
    · rfl
    · split <;> rfl

end LogLess.Restore
