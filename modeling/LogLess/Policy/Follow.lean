import LogLess.Policy.Overrides

/-!
# Overrides over a later configuration file

An operator edits the configuration file while `policy.json` holds overrides of the earlier one. What
was overridden stays as the stored document has it, and everything else follows the file. The key of a
bucket is its index, so its override is found again only where the file lists the bucket as before.

`overlay_later`: what `overlay` makes of a later file, bucket by bucket.
-/

namespace LogLess.Policy

/-! ## What is promised -/

/-- The bucket at this index has another retention in the document than in the file. -/
def Overridden (file doc : Policies) (i : ℕ) (d : RetentionRule) : Prop :=
  doc.retention[i]? = some d ∧
    ∃ f, file.retention[i]? = some f ∧ f.retentionSecs ≠ d.retentionSecs

/-- A later file overlaid with what a document changed of the earlier file. -/
structure Follows (file doc later effective : Policies) : Prop where
  scalars : ∀ s ∈ scalars,
    s.leaf effective = if s.leaf file = s.leaf doc then s.leaf later else s.leaf doc
  /-- A change of the structure is one unit. -/
  whole : sameBucketStructure file doc = false → effective.retention = doc.retention
  structure_eq : sameBucketStructure file doc = true →
    effective.retention.map (fun r => (r.name, r.minSeverity))
      = later.retention.map fun r => (r.name, r.minSeverity)
  /-- An overridden bucket, wherever the file lists it. -/
  kept : sameBucketStructure file doc = true → ∀ i d, Overridden file doc i d →
    ∀ e ∈ effective.retention, e.name = d.name → e.retentionSecs = d.retentionSecs
  /-- A bucket that is not overridden. -/
  followed : sameBucketStructure file doc = true → ∀ (j : ℕ) (l e : RetentionRule),
    later.retention[j]? = some l → effective.retention[j]? = some e →
      (∀ i d, Overridden file doc i d → l.name ≠ d.name) → e.retentionSecs = l.retentionSecs

/-- The later file lists every overridden bucket that it has where the document does, or with the
retention that the document gives it. -/
def InPlace (file doc later : Policies) : Prop :=
  sameBucketStructure file doc = true → ∀ i d, Overridden file doc i d →
    ∀ (j : ℕ) (l : RetentionRule), later.retention[j]? = some l → l.name = d.name →
      j = i ∨ l.retentionSecs = d.retentionSecs

/-! ## The other leaves -/

section

variable {debug : Text → Text} {file doc later : Policies}

theorem leaf_copy {s : Scalar} (hs : s ∈ scalars) (v : Policies) : s.leaf (s.copy doc v) = s.leaf doc := by
  simp only [scalars, ingestAndPushdown, storageScalars, List.cons_append, List.nil_append,
    List.mem_cons, List.not_mem_nil, or_false] at hs
  rcases hs with rfl | rfl | rfl | rfl | rfl | rfl | rfl | rfl <;> rfl

/-- A leaf is not changed by a copy of another. -/
theorem leaf_copy_of_ne : scalars.Pairwise fun s s' => ∀ doc v : Policies,
    s'.leaf (s.copy doc v) = s'.leaf v ∧ s.leaf (s'.copy doc v) = s.leaf v := by
  simp only [scalars, ingestAndPushdown, storageScalars, List.cons_append, List.nil_append,
    List.pairwise_cons, List.mem_cons, List.not_mem_nil, or_false, forall_eq_or_imp, forall_eq,
    implies_true, and_self, List.Pairwise.nil, false_implies]

theorem retention_copy {s : Scalar} (hs : s ∈ scalars) (v : Policies) :
    (s.copy doc v).retention = v.retention := by
  simp only [scalars, ingestAndPushdown, storageScalars, List.cons_append, List.nil_append,
    List.mem_cons, List.not_mem_nil, or_false] at hs
  rcases hs with rfl | rfl | rfl | rfl | rfl | rfl | rfl | rfl <;> rfl

theorem leaf_copy_other {s s' : Scalar} (hs : s ∈ scalars) (hs' : s' ∈ scalars)
    (hne : s.path ≠ s'.path) (v : Policies) : s'.leaf (s.copy doc v) = s'.leaf v := by
  have hdiff : s ≠ s' := by
    rintro rfl
    exact hne rfl
  have hsymm : Std.Symm fun s s' : Scalar => ∀ doc v : Policies,
      s'.leaf (s.copy doc v) = s'.leaf v ∧ s.leaf (s'.copy doc v) = s.leaf v :=
    ⟨fun _ _ h doc v => (h doc v).symm⟩
  exact (leaf_copy_of_ne.forall hs hs' hdiff doc v).1

/-- The copies of some leaves. -/
theorem leaf_foldl_copy {ss : List Scalar} (hss : ∀ s ∈ ss, s ∈ scalars) {s : Scalar}
    (hs : s ∈ scalars) (v : Policies) :
    s.leaf (ss.foldl (fun v s => s.copy doc v) v)
      = if s.path ∈ ss.map Scalar.path then s.leaf doc else s.leaf v := by
  induction ss generalizing v with
  | nil => rfl
  | cons a ss ih =>
    have ha := hss a List.mem_cons_self
    rw [List.foldl_cons, ih fun x hx => hss x (List.mem_cons_of_mem a hx), List.map_cons]
    by_cases hrest : s.path ∈ ss.map Scalar.path
    · rw [if_pos hrest, if_pos (List.mem_cons_of_mem _ hrest)]
    · rw [if_neg hrest]
      by_cases hpath : s.path = a.path
      · obtain rfl : s = a := List.inj_on_of_nodup_map nodup_paths_scalars hs ha hpath
        rw [if_pos List.mem_cons_self, leaf_copy ha]
      · rw [if_neg (List.not_mem_cons_of_ne_of_not_mem hpath hrest)]
        exact leaf_copy_other ha hs (Ne.symm hpath) v

theorem retention_foldl_copy {ss : List Scalar} (hss : ∀ s ∈ ss, s ∈ scalars) (v : Policies) :
    (ss.foldl (fun v s => s.copy doc v) v).retention = v.retention := by
  induction ss generalizing v with
  | nil => rfl
  | cons a ss ih =>
    rw [List.foldl_cons, ih fun x hx => hss x (List.mem_cons_of_mem a hx),
      retention_copy (hss a List.mem_cons_self)]

theorem foldlM_paths {ss : List Scalar} (hss : ∀ s ∈ ss, s ∈ scalars) (v : Policies) :
    (ss.map Scalar.path).foldlM (overlayKey debug later doc) v
      = .ok (ss.foldl (fun v s => s.copy doc v) v) := by
  induction ss generalizing v with
  | nil => rfl
  | cons a ss ih =>
    rw [List.map_cons, List.foldlM_cons, overlayKey_scalar (hss a List.mem_cons_self)]
    exact ih (fun x hx => hss x (List.mem_cons_of_mem a hx)) (a.copy doc v)

/-! ## The buckets -/

/-- What the key of a bucket does to the rule of the file at its index. -/
def patch (file doc later : Policies) (j : ℕ) (r : RetentionRule) : RetentionRule :=
  match file.retention[j]?, doc.retention[j]?, later.retention[j]? with
  | some f, some d, some l =>
    if f.retentionSecs ≠ d.retentionSecs ∧ l.name = d.name then
      { r with retentionSecs := d.retentionSecs }
    else r
  | _, _, _ => r

theorem patch_name (j : ℕ) (r : RetentionRule) :
    (patch file doc later j r).name = r.name ∧
      (patch file doc later j r).minSeverity = r.minSeverity := by
  unfold patch
  split
  · split <;> exact ⟨rfl, rfl⟩
  · exact ⟨rfl, rfl⟩

theorem patch_eq {j : ℕ} {f d l : RetentionRule} (hf : file.retention[j]? = some f)
    (hd : doc.retention[j]? = some d) (hl : later.retention[j]? = some l)
    (hsecs : f.retentionSecs ≠ d.retentionSecs) (hname : l.name = d.name) (r : RetentionRule) :
    patch file doc later j r = { r with retentionSecs := d.retentionSecs } := by
  simp only [patch, hf, hd, hl]
  rw [if_pos ⟨hsecs, hname⟩]

theorem patch_eq_self {j : ℕ} (h : ∀ f d l : RetentionRule, file.retention[j]? = some f →
    doc.retention[j]? = some d → later.retention[j]? = some l →
      f.retentionSecs ≠ d.retentionSecs → l.name ≠ d.name) (r : RetentionRule) :
    patch file doc later j r = r := by
  unfold patch
  split
  · next f d l hf hd hl => rw [if_neg fun hc => h f d l hf hd hl hc.1 hc.2]
  · rfl

/-- One key of a bucket, over a later file. -/
theorem overlayKey_later {v : Policies} {n : ℕ} {f d : RetentionRule} (hn : n < 2 ^ 64)
    (hf : file.retention[n]? = some f) (hd : doc.retention[n]? = some d)
    (hsecs : f.retentionSecs ≠ d.retentionSecs) :
    overlayKey debug later doc v (retentionPath n "retention_secs".toList)
      = .ok { v with retention := v.retention.modify n (patch file doc later n) } := by
  have hcopy : ∀ r, copyField "retention_secs".toList d r
      = some { r with retentionSecs := d.retentionSecs } := fun r => rfl
  unfold overlayKey
  rw [parseRetentionKey_retentionPath hn]
  simp only [hd, Option.map_some]
  by_cases hname : later.retention[n]?.map RetentionRule.name = some d.name
  · obtain ⟨l, hl, hld⟩ := Option.map_eq_some_iff.mp hname
    have hpatch : patch file doc later n = fun r => { r with retentionSecs := d.retentionSecs } :=
      funext (patch_eq hf hd hl hsecs hld)
    rw [if_pos hname, hpatch]
    simp only [hcopy, Option.isNone_some, Bool.false_eq_true, if_false, Option.getD_some]
  · have hid : patch file doc later n = id := by
      refine funext (patch_eq_self fun _ d' l _ hd' hl _ hld => hname ?_)
      rw [hd, Option.some.injEq] at hd'
      rw [hl, Option.map_some, hld, hd']
    rw [if_neg hname, hid, List.modify_id]

/-- The rules of a list, patched from an index on. -/
def patchFrom (file doc later : Policies) (n j : ℕ) (r : RetentionRule) : RetentionRule :=
  if n ≤ j then patch file doc later j r else r

/-- Past the end of a list no bucket is patched. -/
theorem mapIdx_patchFrom_end {n : ℕ} (h : ∀ j, n ≤ j → ∀ f d : RetentionRule,
    file.retention[j]? = some f → doc.retention[j]? ≠ some d) (rs : List RetentionRule) :
    rs.mapIdx (patchFrom file doc later n) = rs := by
  apply List.ext_getElem?
  intro j
  have hself : patchFrom file doc later n j = id := by
    funext r
    rw [patchFrom]
    split
    · next hj => exact patch_eq_self (fun f d _ hf hd _ _ => absurd hd (h j hj f d hf)) r
    · rfl
  rw [List.getElem?_mapIdx, hself, Option.map_id, id]

theorem mapIdx_patchFrom_succ (n : ℕ) (rs : List RetentionRule) :
    (rs.modify n (patch file doc later n)).mapIdx (patchFrom file doc later (n + 1))
      = rs.mapIdx (patchFrom file doc later n) := by
  apply List.ext_getElem?
  intro j
  rw [List.getElem?_mapIdx, List.getElem?_mapIdx, List.getElem?_modify]
  cases rs[j]? with
  | none => rfl
  | some r =>
    simp only [Option.map_eq_map, Option.map_some, patchFrom]
    rcases Nat.lt_trichotomy j n with hj | rfl | hj
    · rw [if_neg (by omega), if_neg (by omega), if_neg (by omega)]
    · rw [if_neg (by omega), if_pos rfl, if_pos le_rfl]
    · rw [if_pos (by omega), if_neg (by omega), if_pos (by omega)]

/-- The keys of the buckets from an index on. -/
theorem foldlM_retentionKeys_later (hlen : doc.retention.length < 2 ^ 64)
    {fs ds : List RetentionRule} {v : Policies} (n : ℕ) (hfs : file.retention.drop n = fs)
    (hds : doc.retention.drop n = ds) :
    (retentionKeys n fs ds).foldlM (overlayKey debug later doc) v
      = .ok { v with retention := v.retention.mapIdx (patchFrom file doc later n) } := by
  induction fs generalizing ds v n with
  | nil =>
    rw [mapIdx_patchFrom_end fun j hj f d hf => by
      rw [List.getElem?_eq_none ((List.drop_eq_nil_iff.mp hfs).trans hj)] at hf
      cases hf]
    rfl
  | cons f fs ih =>
    cases ds with
    | nil =>
      rw [mapIdx_patchFrom_end fun j hj f d _ hd => by
        rw [List.getElem?_eq_none ((List.drop_eq_nil_iff.mp hds).trans hj)] at hd
        cases hd]
      rfl
    | cons d ds =>
      have hf : file.retention[n]? = some f := by
        rw [← List.head?_drop, hfs]
        rfl
      have hd : doc.retention[n]? = some d := by
        rw [← List.head?_drop, hds]
        rfl
      have hfs' : file.retention.drop (n + 1) = fs := by
        rw [← List.tail_drop, hfs]
        rfl
      have hds' : doc.retention.drop (n + 1) = ds := by
        rw [← List.tail_drop, hds]
        rfl
      have hlt : n < doc.retention.length := (List.getElem?_eq_some_iff.mp hd).1
      rw [retentionKeys, List.foldlM_append, ← mapIdx_patchFrom_succ]
      by_cases hsecs : f.retentionSecs = d.retentionSecs
      · have hid : patch file doc later n = id := by
          refine funext (patch_eq_self fun f' d' _ hf' hd' _ hne => absurd hsecs ?_)
          rw [Option.some.inj (hf.symm.trans hf'), Option.some.inj (hd.symm.trans hd')]
          exact hne
        rw [if_neg (not_not.mpr hsecs), hid, List.modify_id]
        exact ih (n + 1) hfs' hds'
      · have hkey := @overlayKey_later debug file doc later v n f d (by omega) hf hd hsecs
        rw [if_pos hsecs, List.foldlM_cons, hkey]
        exact ih (n + 1) hfs' hds'

/-- **A later file, overlaid.** -/
theorem overlay_later (hlen : doc.retention.length < 2 ^ 64) :
    ∃ effective, overlay debug later doc (overridesBetween file doc) = .ok effective ∧
      (∀ s ∈ scalars, s.leaf effective
        = if s.leaf file = s.leaf doc then s.leaf later else s.leaf doc) ∧
      effective.retention = if sameBucketStructure file doc then
        later.retention.mapIdx (patch file doc later) else doc.retention := by
  have hretention : (if sameBucketStructure file doc then
        retentionKeys 0 file.retention doc.retention
      else ["retention".toList]).foldlM (overlayKey debug later doc) later
        = .ok { later with retention := if sameBucketStructure file doc then
            later.retention.mapIdx (patch file doc later) else doc.retention } := by
    split
    · exact foldlM_retentionKeys_later hlen 0 rfl rfl
    · have hparse : parseRetentionKey "retention".toList = none := by decide +kernel
      have hkey : overlayKey debug later doc later "retention".toList
          = .ok { later with retention := doc.retention } := by
        unfold overlayKey
        rw [hparse]
        simp only [if_true]
      rw [List.foldlM_cons, hkey]
      rfl
  have hsub : ∀ s ∈ scalars.filter (fun s => s.leaf file != s.leaf doc), s ∈ scalars :=
    fun s hs => List.mem_of_mem_filter hs
  refine ⟨(scalars.filter fun s => s.leaf file != s.leaf doc).foldl (fun v s => s.copy doc v)
    { later with retention := if sameBucketStructure file doc then
        later.retention.mapIdx (patch file doc later) else doc.retention }, ?_, ?_, ?_⟩
  · rw [overlay, overridesBetween, List.foldlM_append, hretention]
    exact foldlM_paths hsub _
  · intro s hs
    have hleaf : ∀ rs, s.leaf { later with retention := rs } = s.leaf later := by
      intro rs
      simp only [scalars, ingestAndPushdown, storageScalars, List.cons_append, List.nil_append,
        List.mem_cons, List.not_mem_nil, or_false] at hs
      rcases hs with rfl | rfl | rfl | rfl | rfl | rfl | rfl | rfl <;> rfl
    have hmem : s.path ∈ (scalars.filter fun s => s.leaf file != s.leaf doc).map Scalar.path ↔
        s.leaf file ≠ s.leaf doc := by
      constructor
      · intro h
        obtain ⟨a, ha, hpath⟩ := List.mem_map.mp h
        obtain ⟨ha, hne⟩ := List.mem_filter.mp ha
        rw [List.inj_on_of_nodup_map nodup_paths_scalars ha hs hpath] at hne
        simpa using hne
      · intro hne
        exact List.mem_map_of_mem (List.mem_filter.mpr ⟨hs, by simpa using hne⟩)
    rw [leaf_foldl_copy hsub hs, hleaf]
    by_cases heq : s.leaf file = s.leaf doc
    · rw [if_neg fun h => hmem.mp h heq, if_pos heq]
    · rw [if_pos (hmem.mpr heq), if_neg heq]
  · rw [retention_foldl_copy hsub]

/-- The names of a valid document are not used twice. -/
theorem name_inj_of_validate (h : doc.validate debug = []) {i j : ℕ} {r r' : RetentionRule}
    (hi : doc.retention[i]? = some r) (hj : doc.retention[j]? = some r') (hname : r.name = r'.name) :
    i = j := by
  have hlt : ∀ (i j : ℕ) (r r' : RetentionRule), i < j → doc.retention[i]? = some r →
      doc.retention[j]? = some r' → r.name ≠ r'.name := by
    intro i j r r' hij hi hj hname
    have hrule := Policies.ruleProblems_of_validate h hj
    simp only [Policies.ruleProblems, List.append_eq_nil_iff, Option.toList_eq_nil_iff,
      Option.map_eq_none_iff] at hrule
    have hmem : r ∈ doc.retention.take j := by
      refine List.mem_of_getElem? (i := i) ?_
      rw [List.getElem?_take_of_lt hij, hi]
    have hfree := List.findIdx?_eq_none_iff.mp hrule.2 r hmem
    rw [hname, beq_self_eq_true] at hfree
    cases hfree
  rcases Nat.lt_trichotomy i j with hij | hij | hij
  · exact absurd hname (hlt i j r r' hij hi hj)
  · exact hij
  · exact absurd hname.symm (hlt j i r' r hij hj hi)

theorem follows_iff (hvalid : doc.validate debug = []) {effective : Policies}
    (hscalars : ∀ s ∈ scalars, s.leaf effective
      = if s.leaf file = s.leaf doc then s.leaf later else s.leaf doc)
    (hretention : effective.retention = if sameBucketStructure file doc then
      later.retention.mapIdx (patch file doc later) else doc.retention) :
    Follows file doc later effective ↔ InPlace file doc later := by
  have hget : sameBucketStructure file doc = true → ∀ (j : ℕ) (e : RetentionRule),
      effective.retention[j]? = some e →
        ∃ l, later.retention[j]? = some l ∧ patch file doc later j l = e := by
    intro hsame j e he
    rw [hretention, if_pos hsame, List.getElem?_mapIdx] at he
    exact Option.map_eq_some_iff.mp he
  constructor
  · intro h hsame i d hover j l hl hname
    by_contra hor
    obtain ⟨hji, hsecs⟩ := not_or.mp hor
    -- the bucket stands elsewhere, where no key is for it
    have hself : patch file doc later j l = l := by
      refine patch_eq_self (fun f d' l' _ hd' hl' _ hname' => hji ?_) l
      rw [Option.some.inj (hl'.symm.trans hl)] at hname'
      exact name_inj_of_validate hvalid hd' hover.1 (hname'.symm.trans hname)
    have he : effective.retention[j]? = some l := by
      rw [hretention, if_pos hsame, List.getElem?_mapIdx, hl, Option.map_some, hself]
    exact hsecs (h.kept hsame i d hover l (List.mem_of_getElem? he) hname)
  · intro hplace
    refine ⟨hscalars, ?_, ?_, ?_, ?_⟩
    · intro hsame
      rw [hretention, if_neg (Bool.eq_false_iff.mp hsame)]
    · intro hsame
      rw [hretention, if_pos hsame]
      apply List.ext_getElem?
      intro j
      rw [List.getElem?_map, List.getElem?_map, List.getElem?_mapIdx, Option.map_map]
      congr 1
      funext r
      rw [Function.comp, (patch_name j r).1, (patch_name j r).2]
    · intro hsame i d hover e he hname
      obtain ⟨j, hj⟩ := List.mem_iff_getElem?.mp he
      obtain ⟨l, hl, hpatch⟩ := hget hsame j e hj
      have hlname : l.name = d.name := by
        rw [← hname, ← hpatch, (patch_name j l).1]
      obtain ⟨hd, f, hf, hsecs⟩ := hover
      by_cases hji : j = i
      · subst hji
        rw [← hpatch, patch_eq hf hd hl hsecs hlname]
      · have hself : patch file doc later j l = l := by
          refine patch_eq_self (fun f' d' l' _ hd' hl' _ hname' => hji ?_) l
          rw [Option.some.inj (hl'.symm.trans hl)] at hname'
          exact name_inj_of_validate hvalid hd' hd (hname'.symm.trans hlname)
        rw [← hpatch, hself]
        exact (hplace hsame i d ⟨hd, f, hf, hsecs⟩ j l hl hlname).resolve_left hji
    · intro hsame j l e hl he hnot
      obtain ⟨l', hl', hpatch⟩ := hget hsame j e he
      obtain rfl := Option.some.inj (hl.symm.trans hl')
      have hself : patch file doc later j l = l := by
        refine patch_eq_self (fun f d l' hf hd hl' hsecs hname => ?_) l
        rw [Option.some.inj (hl'.symm.trans hl)] at hname
        exact hnot j d ⟨hd, f, hf, hsecs⟩ hname
      rw [← hpatch, hself]

/-- **Overrides follow the file** exactly if a later file lists the overridden buckets it still has
where they were, or gives them the retention they were overridden with. -/
theorem overlay_follows_iff (debug : Text → Text) (file doc later : Policies)
    (hvalid : doc.validate debug = []) :
    overlay debug file doc (overridesBetween file doc) = .ok doc ∧
      ((∃ effective, overlay debug later doc (overridesBetween file doc) = .ok effective ∧
          Follows file doc later effective) ↔ InPlace file doc later) := by
  have hlen := Policies.length_lt_of_validate hvalid
  obtain ⟨effective, hoverlay, hscalars, hretention⟩ := @overlay_later debug file doc later hlen
  have hiff := follows_iff hvalid hscalars hretention
  refine ⟨overlay_overridesBetween hlen, ?_, fun h => ⟨effective, hoverlay, hiff.mpr h⟩⟩
  rintro ⟨effective', hoverlay', hfollows⟩
  obtain rfl : effective = effective' := by
    rw [hoverlay, Except.ok.injEq] at hoverlay'
    exact hoverlay'
  exact hiff.mp hfollows

end

def exampleBuckets (rules : List (String × ℕ × ℕ)) : Policies where
  retention := rules.map fun r => ⟨r.1.toList, r.2.1, r.2.2⟩
  storage := ⟨10 ^ 9, 4 / 5, 19 / 20, 7 / 10⟩
  ingest := ⟨1000, 8192⟩
  pushdown := ⟨true, 17⟩

/-- A bucket appended to the file leaves the others where they were. -/
theorem overlay_follows_append :
    ∃ effective,
      overlay id (exampleBuckets [("all", 0, 100), ("error", 17, 300), ("fatal", 21, 400)])
        (exampleBuckets [("all", 0, 100), ("error", 17, 9000)])
        (overridesBetween (exampleBuckets [("all", 0, 100), ("error", 17, 200)])
          (exampleBuckets [("all", 0, 100), ("error", 17, 9000)])) = .ok effective ∧
      Follows (exampleBuckets [("all", 0, 100), ("error", 17, 200)])
        (exampleBuckets [("all", 0, 100), ("error", 17, 9000)])
        (exampleBuckets [("all", 0, 100), ("error", 17, 300), ("fatal", 21, 400)]) effective := by
  have hvalid : (exampleBuckets [("all", 0, 100), ("error", 17, 9000)]).validate id = [] := by
    decide +kernel
  refine (overlay_follows_iff id _ _ _ hvalid).2.mpr ?_
  intro _ i d hover j l hl hname
  obtain ⟨hd, f, hf, hsecs⟩ := hover
  match i with
  | 0 =>
    cases hd
    cases hf
    exact absurd rfl hsecs
  | 1 =>
    cases hd
    match j with
    | 0 =>
      cases hl
      exact absurd hname (by decide +kernel)
    | 1 => exact .inl rfl
    | 2 =>
      cases hl
      exact absurd hname (by decide +kernel)
    | j + 3 => cases hl
  | i + 2 => cases hd

/-- A bucket inserted before it moves the overridden one, and its override is ignored. -/
theorem moved_override_ignored :
    let file := exampleBuckets [("all", 0, 100), ("error", 17, 200)]
    let doc := exampleBuckets [("all", 0, 100), ("error", 17, 9000)]
    let later := exampleBuckets [("all", 0, 100), ("warn", 13, 150), ("error", 17, 200)]
    file.validate id = [] ∧ doc.validate id = [] ∧ later.validate id = [] ∧
      overlay id later doc (overridesBetween file doc) = .ok later ∧
      ¬ Follows file doc later later := by
  intro file doc later
  refine ⟨by decide +kernel, by decide +kernel, by decide +kernel, by decide +kernel, ?_⟩
  intro h
  have hsame : sameBucketStructure file doc = true := by decide +kernel
  have hover : Overridden file doc 1 ⟨"error".toList, 17, 9000⟩ :=
    ⟨rfl, ⟨"error".toList, 17, 200⟩, rfl, by decide⟩
  have hkept := h.kept hsame 1 _ hover ⟨"error".toList, 17, 200⟩
    (List.mem_of_getElem? (i := 2) rfl) rfl
  exact absurd hkept (by decide)

end LogLess.Policy
