import LogLess.Drain.Restore
import Mathlib.Data.List.DropRight

/-!
# Stable template ids

A line that has joined or started a template is settled: the template is in its leaf,
covers it, and scores higher than all that come after it there. A settled line lands on its
template as long as it stays settled, and only two things a later line can do end that. It
can start a template on a branch that the settled line has so far missed, and taken the
wildcard branch instead; or it can make a template that comes later in the leaf as similar
to the settled line as its own.
-/

namespace LogLess

open WildTree Mask

/-! ## Similarity -/

theorem similarity_le_one (template tokens : List Text) : similarity template tokens ≤ 1 := by
  rw [similarity]
  split
  · norm_num
  · split
    · exact le_rfl
    · simp only
      split
      · exact le_rfl
      · exact Float64.ratio_le_one (List.length_filter_le _ _)

/-- Every slot of the template holds the line's token or the wildcard. -/
def Covers (template tokens : List Text) : Prop :=
  List.Forall₂ (fun slot token => slot = token ∨ slot = wildcard) template tokens

theorem Covers.refl (tokens : List Text) : Covers tokens tokens :=
  List.forall₂_same.mpr fun _ _ => .inl rfl

theorem Covers.mergeInto {template tokens : List Text} (h : Covers template tokens)
    (others : List Text) : Covers (mergeInto template others).1 tokens := by
  induction h generalizing others with
  | nil =>
    rw [LogLess.mergeInto]
    · exact .nil
    · simp
  | @cons slot token template tokens hslot hrest ih =>
    cases others with
    | nil =>
      rw [LogLess.mergeInto]
      · exact .cons hslot hrest
      · simp
    | cons other others =>
      simp only [LogLess.mergeInto]
      split
      · exact .cons (.inr rfl) (ih others)
      · exact .cons hslot (ih others)

theorem covers_mergeInto {template tokens : List Text} (hlen : template.length = tokens.length) :
    Covers (mergeInto template tokens).1 tokens := by
  induction template generalizing tokens with
  | nil =>
    rw [List.length_eq_zero_iff.mp hlen.symm, mergeInto]
    · exact .nil
    · simp
  | cons slot template ih =>
    cases tokens with
    | nil => cases hlen
    | cons token tokens =>
      have hrest := ih (by simpa using hlen)
      simp only [mergeInto]
      split
      · exact .cons (.inr rfl) hrest
      · next hslot =>
        refine .cons ?_ hrest
        simp only [Bool.and_eq_true, decide_eq_true_eq, not_and_or, not_not] at hslot
        exact hslot

theorem Covers.eq_of_mem_comparable {template tokens : List Text} (h : Covers template tokens) :
    ∀ x ∈ comparable template tokens, x.1 = x.2 := by
  intro x hx
  obtain ⟨hzip, hcomparable⟩ := List.mem_filter.mp hx
  rcases List.forall₂_zip h hzip with heq | hwild
  · exact heq
  · simp [hwild] at hcomparable

theorem Covers.similarity {template tokens : List Text} (h : Covers template tokens) :
    similarity template tokens = 1 := by
  have hlen : template.length = tokens.length := h.length_eq
  have hall : (comparable template tokens).filter (fun x => x.1 == x.2)
      = comparable template tokens := by
    rw [List.filter_eq_self]
    intro x hx
    rw [beq_iff_eq]
    exact h.eq_of_mem_comparable x hx
  rw [LogLess.similarity, if_neg (not_not.mpr hlen)]
  split
  · rfl
  · simp only [hall]
    split
    · rfl
    · next hpos => exact Float64.ratio_self (Nat.pos_of_ne_zero hpos)

/-! ## Settled lines -/

namespace Drain

variable {d : Drain} {masked : List Text} {id : ℕ}

/-- The template of this id covers the line, and is the last of its leaf to score 1. -/
structure Settled (d : Drain) (masked : List Text) (id : ℕ) : Prop where
  nonempty : masked ≠ []
  leaf : ∃ t before after, d.template id = some t ∧ Covers t.tokens masked ∧
    d.config.leafTemplates d.roots masked = before ++ id :: after ∧
    ∀ j ∈ after, ∀ u, d.template j = some u → similarity u.tokens masked < 1

/-- A settled line lands on its template. -/
theorem Settled.best (h : d.Settled masked id)
    (hthreshold : d.config.similarityThreshold.le 1 = true) :
    ∃ t, d.best masked = some t ∧ t.id = id := by
  obtain ⟨t, before, after, ht, hcovers, hleaf, hafter⟩ := h.leaf
  refine ⟨t, ?_, (template_eq_some ht).2⟩
  set scores := fun ids : List ℕ =>
    ((ids.filterMap d.template).map fun t => (t, similarity t.tokens masked)).filter
      fun x => d.config.similarityThreshold.le x.2 with hscores
  have hsplit : (d.scored masked).filter (fun x => d.config.similarityThreshold.le x.2)
      = scores before ++ (t, 1) :: scores after := by
    rw [scored, hleaf, List.filterMap_append, List.filterMap_cons_some ht, List.map_append,
      List.map_cons, hcovers.similarity, List.filter_append, List.filter_cons, if_pos hthreshold]
  have hmax : Lists.lastMax (scores before ++ (t, 1) :: scores after) = some (t, 1) := by
    apply Lists.lastMax_of_split
    · intro y hy
      obtain ⟨u, -, rfl⟩ := List.mem_map.mp (List.mem_filter.mp hy).1
      exact similarity_le_one _ _
    · intro y hy
      obtain ⟨u, hu, rfl⟩ := List.mem_map.mp (List.mem_filter.mp hy).1
      obtain ⟨j, hj, hu⟩ := List.mem_filterMap.mp hu
      exact hafter j hj u hu
  rw [Drain.best, hsplit, hmax]
  rfl

/-- The result of a settled line. -/
theorem Settled.matchMasked (h : d.Settled masked id)
    (hthreshold : d.config.similarityThreshold.le 1 = true) (raw : List Text) (now : ℕ) :
    ∃ m, (d.matchMasked masked raw now).2 = some m ∧ m.templateId = id ∧ m.isNew = false := by
  obtain ⟨t, hbest, rfl⟩ := h.best hthreshold
  have hne : masked.isEmpty = false := by simpa using h.nonempty
  refine ⟨(d.join t masked raw now).2, ?_, rfl, rfl⟩
  simp only [Drain.matchMasked, hne, hbest]
  rfl

theorem Settled.addLine {line : Text} (h : d.Settled (maskLine line).1 id)
    (hthreshold : d.config.similarityThreshold.le 1 = true) (now : ℕ) :
    ∃ m, (d.addLine line now).2 = some m ∧ m.templateId = id ∧ m.isNew = false := by
  have hseen : { d with linesSeen := d.linesSeen + 1 }.Settled (maskLine line).1 id :=
    ⟨h.nonempty, h.leaf⟩
  exact hseen.matchMasked hthreshold _ now

/-! ## A line settles -/

/-- Where the chosen template stands in the leaf. -/
theorem best_leaf {t : Template} (h : d.best masked = some t) :
    ∃ before after, d.template t.id = some t ∧
      d.config.leafTemplates d.roots masked = before ++ t.id :: after ∧
      t.id ∉ after ∧ ∀ j ∈ after, ∀ u, d.template j = some u → similarity u.tokens masked < 1 := by
  obtain ⟨x, hx, rfl⟩ := Option.map_eq_some_iff.mp h
  obtain ⟨b, a, hsplit, -, hlt⟩ := Lists.lastMax_eq_some hx
  -- the split of the filtered scores is one of the scores, and that one of the leaf
  obtain ⟨l₁, l₂, hscored, -, hl₂⟩ := List.filter_eq_append_iff.mp hsplit
  obtain ⟨m₁, m₂, rfl, -, hpass, hm₂⟩ := List.filter_eq_cons_iff.mp hl₂
  rw [scored, ← List.append_assoc] at hscored
  obtain ⟨n₁, n₂, hfilterMap, -, hn₂⟩ := List.map_eq_append_iff.mp hscored
  obtain ⟨t, n₃, rfl, rfl, hn₃⟩ := List.map_eq_cons_iff.mp hn₂
  obtain ⟨k₁, k₂, hleaf, -, hk₂⟩ := List.filterMap_eq_append_iff.mp hfilterMap
  obtain ⟨before, i, after, rfl, -, hi, hafter⟩ := List.filterMap_eq_cons_iff.mp hk₂
  obtain ⟨-, rfl⟩ := template_eq_some hi
  -- what comes later scores less, or less than the threshold
  have hbelow : ∀ j ∈ after, ∀ u, d.template j = some u →
      similarity u.tokens masked < similarity t.tokens masked ∨
        d.config.similarityThreshold.le (similarity u.tokens masked) = false := by
    intro j hj u hu
    have hmem : (u, similarity u.tokens masked) ∈ m₂ := by
      rw [← hn₃, ← hafter]
      exact List.mem_map_of_mem (List.mem_filterMap.mpr ⟨j, hj, hu⟩)
    by_cases hthreshold : d.config.similarityThreshold.le (similarity u.tokens masked) = true
    · refine .inl (hlt (u, _) ?_)
      rw [← hm₂]
      exact List.mem_filter.mpr ⟨hmem, hthreshold⟩
    · exact .inr (Bool.eq_false_iff.mpr hthreshold)
  refine ⟨k₁ ++ before, after, hi, by rw [hleaf, List.append_assoc], ?_, ?_⟩
  · intro hmem
    rcases hbelow _ hmem t hi with hself | hself
    · exact lt_irrefl _ hself
    · rw [hpass] at hself
      cases hself
  · intro j hj u hu
    rcases hbelow j hj u hu with hless | hless
    · exact hless.trans_le (similarity_le_one _ _)
    · refine lt_of_le_of_ne (similarity_le_one _ _) fun hone => ?_
      rw [hone] at hless
      have hle := Float64.F64.le_trans hpass (similarity_le_one t.tokens masked)
      rw [hless] at hle
      cases hle

theorem mem_ids_of_mem_leaf (h : d.Ok) {tokens : List Text}
    (hid : id ∈ d.config.leafTemplates d.roots tokens) : id ∈ d.templates.map Template.id := by
  by_contra hnot
  obtain ⟨node, -, hat⟩ := at_of_mem_leafTemplates hid
  rw [h.roots, treeOf, at_foldl_of_notMem hnot] at hat
  simp [Roots.At] at hat

theorem length_eq_of_mem_leaf (h : d.Ok) {t : Template} (ht : t ∈ d.templates)
    (hleaf : t.id ∈ d.config.leafTemplates d.roots masked) :
    t.tokens.length = masked.length := by
  obtain ⟨before, after, hsplit, hbefore, hafter⟩ := h.split ht
  obtain ⟨node, -, hat⟩ := at_of_mem_leafTemplates hleaf
  rw [h.roots, hsplit, at_treeOf hbefore hafter] at hat
  exact hat.1.symm

theorem template_join (h : d.Ok) {t : Template} (ht : t ∈ d.templates) (raw : List Text)
    (now j : ℕ) : (d.join t masked raw now).1.template j
      = if j = t.id then some (joined t masked now) else d.template j := by
  obtain ⟨before, after, hsplit, hbefore, hafter⟩ := h.split ht
  have hid : (joined t masked now).id = t.id := rfl
  rw [template, (d.join_fields t masked raw now).2.2.2.2.1,
    templates_putTemplate hsplit hid hbefore hafter, find_replace hid hbefore, ← hsplit]
  rfl

/-- The template a line starts. -/
def started (d : Drain) (masked : List Text) (now : ℕ) : Template :=
  ⟨d.nextId, masked, 1, now, now,
    if d.lineages.contains (fingerprintOf (joinTokens masked)) then
      fingerprintOf (joinTokens masked ++ [Char.ofNat 0x1F] ++ Decimal.ofNat d.nextId)
    else fingerprintOf (joinTokens masked)⟩

theorem template_start (h : d.Ok) (raw : List Text) (now j : ℕ) :
    (d.start masked raw now).1.template j
      = if j = d.nextId then some (d.started masked now) else d.template j := by
  have hnext : ∀ u ∈ d.templates, u.id < (d.started masked now).id := fun u hu => h.id_lt_nextId hu
  have htemplates : (d.start masked raw now).1.templates = d.templates ++ [d.started masked now] :=
    templates_putTemplate_of_new hnext
  have hnew : (d.started masked now).id ∉ d.templates.map Template.id := by
    intro hmem
    obtain ⟨u, hu, heq⟩ := List.mem_map.mp hmem
    have := hnext u hu
    omega
  rw [template, htemplates, template_append hnew]
  rfl

theorem leafTemplates_insert (c : DrainConfig) (roots : Roots) (tokens : List Text) (id : ℕ) :
    ∃ before, c.leafTemplates (c.insertIntoTree roots tokens id) tokens = before ++ [id] := by
  rw [DrainConfig.leafTemplates, DrainConfig.insertIntoTree, Assoc.get_insert, if_pos rfl]
  exact Node.lookup_insert_self _ _ _

/-- A line that gets a match is settled on its template. -/
theorem settled_matchMasked (h : d.Ok) {raw : List Text} {now : ℕ} {m : Match}
    (hm : (d.matchMasked masked raw now).2 = some m) :
    (d.matchMasked masked raw now).1.Settled masked m.templateId := by
  rcases d.matchMasked_cases masked raw now with ⟨-, heq⟩ | ⟨t, hne, hbest, heq⟩ |
    ⟨-, -, -, heq⟩ | ⟨hne, -, -, heq⟩
  · rw [heq] at hm
    cases hm
  · rw [heq] at hm ⊢
    obtain rfl := Option.some.inj hm
    obtain ⟨before, after, ht, hleaf, hself, hafter⟩ := best_leaf hbest
    have hmem := (template_eq_some ht).1
    have hlen := length_eq_of_mem_leaf h hmem (by rw [hleaf]; simp)
    have hleaf' : (d.join t masked raw now).1.config.leafTemplates
        (d.join t masked raw now).1.roots masked = before ++ t.id :: after := by
      rw [(d.join_fields t masked raw now).1, (d.join_fields t masked raw now).2.1, hleaf]
    refine ⟨hne, joined t masked now, before, after, ?_, covers_mergeInto hlen, hleaf', ?_⟩
    · exact (template_join h hmem raw now t.id).trans (if_pos rfl)
    · intro j hj u hu
      have hother : j ≠ t.id := fun heq => hself (heq ▸ hj)
      rw [template_join h hmem, if_neg hother] at hu
      exact hafter j hj u hu
  · rw [heq] at hm
    cases hm
  · rw [heq] at hm ⊢
    obtain rfl := Option.some.inj hm
    obtain ⟨before, hleaf⟩ := leafTemplates_insert d.config d.roots masked d.nextId
    refine ⟨hne, d.started masked now, before, [], ?_, Covers.refl masked, hleaf, by simp⟩
    exact (template_start h raw now d.nextId).trans (if_pos rfl)

/-! ## A line stays settled -/

/-- The ids of a line's leaf after the last one that scores 1. -/
def later (d : Drain) (masked : List Text) : List ℕ :=
  (d.config.leafTemplates d.roots masked).rtakeWhile fun j =>
    decide ((d.template j).map (fun t => similarity t.tokens masked) ≠ some 1)

/-- The next line `next` moves `masked` away from its template. It widens a template that
comes later in the leaf of `masked` until it scores 1 too; or it starts a template, and this
one scores 1 at the end of that leaf, or opens a branch that `masked` takes from then on. -/
def disturbs (d : Drain) (next masked : List Text) : Bool :=
  match d.best next with
  | some t => (d.later masked).contains t.id && similarity (mergeInto t.tokens next).1 masked == 1
  | none =>
    decide (d.templates.length < d.config.maxTemplates) && next.length == masked.length &&
      match ((Assoc.get d.roots next.length).getD .empty).hit wildcard d.config.maxChildren
          (d.config.treeKeys next) (d.config.treeKeys masked) with
      | .apart => false
      | .joins => similarity next masked == 1
      | .diverts => true

theorem later_eq {before after : List ℕ} {t : Template} (ht : d.template id = some t)
    (hcovers : Covers t.tokens masked)
    (hleaf : d.config.leafTemplates d.roots masked = before ++ id :: after)
    (hafter : ∀ j ∈ after, ∀ u, d.template j = some u → similarity u.tokens masked < 1) :
    d.later masked = after := by
  rw [later, hleaf]
  clear hleaf
  induction after using List.reverseRecOn with
  | nil =>
    rw [List.rtakeWhile_concat_neg]
    simp [ht, hcovers.similarity]
  | append_singleton after j ih =>
    rw [← List.cons_append, ← List.append_assoc, List.rtakeWhile_concat_pos,
      ih fun k hk => hafter k (List.mem_append_left _ hk)]
    simp only [decide_eq_true_eq]
    intro hone
    obtain ⟨u, hu, hone⟩ := Option.map_eq_some_iff.mp hone
    exact absurd hone (hafter j (by simp) u hu).ne

theorem leafTemplates_eq (c : DrainConfig) (roots : Roots) (tokens : List Text) :
    c.leafTemplates roots tokens
      = ((Assoc.get roots tokens.length).getD .empty).lookup wildcard (c.treeKeys tokens) := by
  rw [DrainConfig.leafTemplates]
  cases Assoc.get roots tokens.length with
  | none => rw [Option.getD_none, Node.lookup_empty]
  | some node => rfl

/-- The leaf of a line after an insertion of other tokens. -/
theorem leafTemplates_insert_other {c : DrainConfig} {roots : Roots} {next masked : List Text}
    (i : ℕ) (hlen : next.length = masked.length) :
    c.leafTemplates (c.insertIntoTree roots next i) masked
      = (((Assoc.get roots next.length).getD .empty).insert wildcard c.maxChildren
          (c.treeKeys next) i).lookup wildcard (c.treeKeys masked) := by
  rw [leafTemplates_eq, DrainConfig.insertIntoTree, Assoc.get_insert, if_pos hlen.symm]
  rfl

theorem leafTemplates_insert_length {c : DrainConfig} {roots : Roots} {next masked : List Text}
    (i : ℕ) (hlen : next.length ≠ masked.length) :
    c.leafTemplates (c.insertIntoTree roots next i) masked = c.leafTemplates roots masked := by
  rw [DrainConfig.leafTemplates, DrainConfig.insertIntoTree, Assoc.get_insert,
    if_neg (Ne.symm hlen)]
  rfl

theorem Settled.join (h : d.Settled masked id) (hok : d.Ok) {next : List Text} {t : Template}
    (hbest : d.best next = some t) (hcalm : d.disturbs next masked = false) (raw : List Text)
    (now : ℕ) : (d.join t next raw now).1.Settled masked id := by
  obtain ⟨u, before, after, hu, hcovers, hleaf, hafter⟩ := h.leaf
  have hmem := (best_eq_some hbest).1
  have hlater : d.later masked = after := later_eq hu hcovers hleaf hafter
  have hfields := d.join_fields t next raw now
  have hleaf' : (d.join t next raw now).1.config.leafTemplates
      (d.join t next raw now).1.roots masked = before ++ id :: after := by
    rw [hfields.1, hfields.2.1, hleaf]
  by_cases hid : id = t.id
  · -- its own template becomes wider
    subst hid
    have hself : u = t := by
      have ht : d.template t.id = some t := (best_leaf hbest).choose_spec.choose_spec.1
      exact Option.some.inj (hu.symm.trans ht)
    subst hself
    refine ⟨h.nonempty, joined u next now, before, after, ?_, hcovers.mergeInto next, hleaf', ?_⟩
    · rw [template_join hok hmem, if_pos rfl]
    · intro j hj v hv
      rw [template_join hok hmem] at hv
      have hne : j ≠ u.id := by
        rintro rfl
        exact absurd hcovers.similarity (hafter u.id hj u hu).ne
      rw [if_neg hne] at hv
      exact hafter j hj v hv
  · refine ⟨h.nonempty, u, before, after, ?_, hcovers, hleaf', ?_⟩
    · rw [template_join hok hmem, if_neg hid, hu]
    · intro j hj v hv
      rw [template_join hok hmem] at hv
      split at hv
      · next heq =>
        -- a later template becomes wider, but not so wide as to score 1
        obtain rfl := Option.some.inj hv
        simp only [disturbs, hbest, hlater] at hcalm
        refine lt_of_le_of_ne (similarity_le_one _ _) fun hone => ?_
        have hone' : similarity (mergeInto t.tokens next).1 masked = 1 := hone
        simp [hone', ← heq, hj] at hcalm
      · exact hafter j hj v hv

theorem Settled.start (h : d.Settled masked id) (hok : d.Ok) {next : List Text}
    (hbest : d.best next = none) (hroom : d.templates.length < d.config.maxTemplates)
    (hcalm : d.disturbs next masked = false) (raw : List Text) (now : ℕ) :
    (d.start next raw now).1.Settled masked id := by
  obtain ⟨u, before, after, hu, hcovers, hleaf, hafter⟩ := h.leaf
  have hold : ∀ j ∈ d.config.leafTemplates d.roots masked, j ≠ d.nextId := by
    rintro j hj rfl
    obtain ⟨t, ht, heq⟩ := List.mem_map.mp (mem_ids_of_mem_leaf hok hj)
    have := hok.id_lt_nextId ht
    omega
  have hid : id ≠ d.nextId := hold id (by rw [hleaf]; simp)
  have hu' : (d.start next raw now).1.template id = some u := by
    rw [template_start hok, if_neg hid, hu]
  have hafter' : ∀ j ∈ after, ∀ v, (d.start next raw now).1.template j = some v →
      similarity v.tokens masked < 1 := by
    intro j hj v hv
    rw [template_start hok, if_neg (hold j (by rw [hleaf]; simp [hj]))] at hv
    exact hafter j hj v hv
  have hroots : (d.start next raw now).1.config.leafTemplates (d.start next raw now).1.roots masked
      = d.config.leafTemplates (d.config.insertIntoTree d.roots next d.nextId) masked := rfl
  by_cases hlen : next.length = masked.length
  · obtain ⟨hapart, hjoins⟩ := Node.lookup_insert wildcard d.config.maxChildren
      ((Assoc.get d.roots next.length).getD .empty) (d.config.treeKeys next)
      (d.config.treeKeys masked) d.nextId
    have hold : ((Assoc.get d.roots next.length).getD .empty).lookup wildcard
        (d.config.treeKeys masked) = before ++ id :: after := by
      rw [hlen, ← leafTemplates_eq, hleaf]
    rw [leafTemplates_insert_other d.nextId hlen] at hroots
    simp only [disturbs, hbest, hroom, decide_true, hlen, beq_self_eq_true, Bool.true_and] at hcalm
    rw [← hlen] at hcalm
    split at hcalm
    · next hhit =>
      exact ⟨h.nonempty, u, before, after, hu', hcovers, by rw [hroots, hapart hhit, hold], hafter'⟩
    · next hhit =>
      -- the new template is the last of the leaf, but does not score 1
      refine ⟨h.nonempty, u, before, after ++ [d.nextId], hu', hcovers, ?_, ?_⟩
      · rw [hroots, hjoins hhit, hold]
        simp
      · intro j hj v hv
        rcases List.mem_append.mp hj with hj | hj
        · exact hafter' j hj v hv
        · rw [List.mem_singleton.mp hj, template_start hok, if_pos rfl] at hv
          obtain rfl := Option.some.inj hv
          refine lt_of_le_of_ne (similarity_le_one _ _) fun hone => ?_
          have hone' : similarity next masked = 1 := hone
          simp [hone'] at hcalm
    · cases hcalm
  · rw [leafTemplates_insert_length d.nextId hlen] at hroots
    exact ⟨h.nonempty, u, before, after, hu', hcovers, by rw [hroots, hleaf], hafter'⟩

/-- A settled line stays settled when the next line does not disturb it. -/
theorem Settled.step (h : d.Settled masked id) (hok : d.Ok) {next : List Text}
    (hcalm : d.disturbs next masked = false) (raw : List Text) (now : ℕ) :
    (d.matchMasked next raw now).1.Settled masked id := by
  rcases d.matchMasked_cases next raw now with ⟨-, heq⟩ | ⟨t, -, hbest, heq⟩ | ⟨-, -, -, heq⟩ |
    ⟨-, hbest, hroom, heq⟩
  · rw [heq]
    exact h
  · rw [heq]
    exact h.join hok hbest hcalm raw now
  · rw [heq]
    exact ⟨h.nonempty, h.leaf⟩
  · rw [heq]
    exact h.start hok hbest hroom hcalm raw now

/-! ## A line that is disturbed moves -/

/-- The id of a match: the template that was chosen, or a new one. -/
theorem templateId_matchMasked {raw : List Text} {now : ℕ} {m : Match}
    (hm : (d.matchMasked masked raw now).2 = some m) :
    (∃ t, d.best masked = some t ∧ m.templateId = t.id) ∨ m.templateId = d.nextId := by
  rcases d.matchMasked_cases masked raw now with ⟨-, heq⟩ | ⟨t, -, hbest, heq⟩ |
    ⟨-, -, -, heq⟩ | ⟨-, -, -, heq⟩
  · rw [heq] at hm
    cases hm
  · rw [heq] at hm
    obtain rfl := Option.some.inj hm
    exact .inl ⟨t, hbest, rfl⟩
  · rw [heq] at hm
    cases hm
  · rw [heq] at hm
    obtain rfl := Option.some.inj hm
    exact .inr rfl

/-- A template is not chosen when one after it in the leaf scores 1. -/
theorem best_ne_of_later {before after : List ℕ} {t : Template}
    (hleaf : d.config.leafTemplates d.roots masked = before ++ id :: after) (hid : id ∉ after)
    {j : ℕ} (hj : j ∈ after) {u : Template} (hu : d.template j = some u)
    (hone : similarity u.tokens masked = 1) (hbest : d.best masked = some t) : t.id ≠ id := by
  rintro rfl
  obtain ⟨before', after', -, hleaf', hself, hless⟩ := best_leaf hbest
  rw [hleaf] at hleaf'
  have hsame : after = after' := by
    rcases List.append_eq_append_iff.mp hleaf' with ⟨c, -, hc⟩ | ⟨c, -, hc⟩
    · cases c with
      | nil => exact (List.cons.inj hc).2
      | cons x c =>
        obtain ⟨rfl, rfl⟩ := List.cons.inj hc
        exact absurd (by simp) hid
    · cases c with
      | nil => exact (List.cons.inj hc).2.symm
      | cons x c =>
        obtain ⟨rfl, rfl⟩ := List.cons.inj hc
        exact absurd (by simp) hself
  exact absurd hone (hless j (hsame ▸ hj) u hu).ne

/-- Only lines of one length disturb each other. -/
theorem length_eq_of_disturbs (hok : d.Ok) {next : List Text}
    (h : d.disturbs next masked = true) : next.length = masked.length := by
  rw [disturbs] at h
  split at h
  · next t hbest =>
    obtain ⟨ht, hleaf⟩ := best_eq_some hbest
    simp only [Bool.and_eq_true, List.contains_iff_mem] at h
    have hlater : t.id ∈ d.config.leafTemplates d.roots masked :=
      (List.rtakeWhile_suffix _ _).mem h.1
    rw [← length_eq_of_mem_leaf hok ht hleaf, length_eq_of_mem_leaf hok ht hlater]
  · simp only [Bool.and_eq_true, beq_iff_eq] at h
    exact h.1.2

theorem Settled.join_moves (h : d.Settled masked id) (hok : d.Ok) {next : List Text}
    {t : Template} (hbest : d.best next = some t) (hdisturbs : d.disturbs next masked = true)
    (raw : List Text) (now : ℕ) {v : Template}
    (hv : (d.join t next raw now).1.best masked = some v) : v.id ≠ id := by
  obtain ⟨u, before, after, hu, hcovers, hleaf, hafter⟩ := h.leaf
  have hid : id ∉ after := fun hmem => absurd hcovers.similarity (hafter id hmem u hu).ne
  simp only [disturbs, hbest, later_eq hu hcovers hleaf hafter, Bool.and_eq_true,
    List.contains_iff_mem, beq_iff_eq] at hdisturbs
  have hleaf' : (d.join t next raw now).1.config.leafTemplates
      (d.join t next raw now).1.roots masked = before ++ id :: after := by
    rw [(d.join_fields t next raw now).1, (d.join_fields t next raw now).2.1, hleaf]
  have ht : (d.join t next raw now).1.template t.id = some (joined t next now) := by
    rw [template_join hok (best_eq_some hbest).1, if_pos rfl]
  exact best_ne_of_later hleaf' hid hdisturbs.1 ht hdisturbs.2 hv

theorem Settled.start_moves (h : d.Settled masked id) (hok : d.Ok) {next : List Text}
    (hbest : d.best next = none) (hdisturbs : d.disturbs next masked = true)
    (raw : List Text) (now : ℕ) {v : Template}
    (hv : (d.start next raw now).1.best masked = some v) : v.id ≠ id := by
  obtain ⟨u, before, after, hu, hcovers, hleaf, hafter⟩ := h.leaf
  have hid : id ∉ after := fun hmem => absurd hcovers.similarity (hafter id hmem u hu).ne
  have hlt : id < d.nextId := by
    obtain ⟨hmem, rfl⟩ := template_eq_some hu
    exact hok.id_lt_nextId hmem
  have hlen := length_eq_of_disturbs hok hdisturbs
  have hroots : (d.start next raw now).1.config.leafTemplates (d.start next raw now).1.roots masked
      = d.config.leafTemplates (d.config.insertIntoTree d.roots next d.nextId) masked := rfl
  rw [leafTemplates_insert_other d.nextId hlen] at hroots
  simp only [disturbs, hbest, Bool.and_eq_true] at hdisturbs
  have hhit := hdisturbs.2
  split at hhit
  · cases hhit
  · next hjoins =>
    have hold : ((Assoc.get d.roots next.length).getD .empty).lookup wildcard
        (d.config.treeKeys masked) = before ++ id :: after := by
      rw [hlen, ← leafTemplates_eq, hleaf]
    rw [(Node.lookup_insert _ _ _ _ _ _).2 hjoins, hold, List.append_assoc,
      List.cons_append] at hroots
    have ht : (d.start next raw now).1.template d.nextId = some (d.started next now) := by
      rw [template_start hok, if_pos rfl]
    have hid' : id ∉ after ++ [d.nextId] := by
      rw [List.mem_append, List.mem_singleton, not_or]
      exact ⟨hid, hlt.ne⟩
    have hone : similarity next masked = 1 := by simpa using hhit
    exact best_ne_of_later hroots hid' (by simp) ht hone hv
  · next hdiverts =>
    have hmem := (best_eq_some hv).2
    rw [hroots] at hmem
    rw [Node.lookup_insert_diverts hdiverts d.nextId v.id hmem]
    exact hlt.ne'

/-- A settled line that is disturbed gets another id, or none. -/
theorem Settled.moves {line : Text} (h : d.Settled (maskLine line).1 id) (hok : d.Ok) {l : Line}
    (hdisturbs : d.disturbs (maskLine l.1).1 (maskLine line).1 = true) {now : ℕ} {m : Match}
    (hm : ((d.step l).addLine line now).2 = some m) : m.templateId ≠ id := by
  set d₁ : Drain := { d with linesSeen := d.linesSeen + 1 } with hd₁
  have h₁ : d₁.Settled (maskLine line).1 id := ⟨h.nonempty, h.leaf⟩
  have hok₁ : d₁.Ok := hok.seen
  have hdisturbs₁ : d₁.disturbs (maskLine l.1).1 (maskLine line).1 = true := hdisturbs
  have hlt : id < d₁.nextId := by
    obtain ⟨u, _, _, hu, -⟩ := h.leaf
    obtain ⟨hmem, rfl⟩ := template_eq_some hu
    exact hok.id_lt_nextId hmem
  have hresult := templateId_matchMasked hm
  change (∃ t, (d.step l).best (maskLine line).1 = some t ∧ m.templateId = t.id) ∨
    m.templateId = (d.step l).nextId at hresult
  have hstep : d.step l = (d₁.matchMasked (maskLine l.1).1 (maskLine l.1).2 l.2).1 := rfl
  rcases d₁.matchMasked_cases (maskLine l.1).1 (maskLine l.1).2 l.2 with ⟨hempty, -⟩ |
    ⟨t, -, hbest, heq⟩ | ⟨-, hbest, hfull, -⟩ | ⟨-, hbest, -, heq⟩
  · have hlen := length_eq_of_disturbs hok₁ hdisturbs₁
    rw [hempty] at hlen
    exact absurd (List.length_eq_zero_iff.mp hlen.symm) h.nonempty
  · rw [hstep, heq] at hresult
    rcases hresult with ⟨v, hv, hid⟩ | hid
    · rw [hid]
      exact h₁.join_moves hok₁ hbest hdisturbs₁ (maskLine l.1).2 l.2 hv
    · rw [hid, (d₁.join_fields t _ _ _).2.2.1]
      exact hlt.ne'
  · simp only [disturbs, hbest, Bool.and_eq_true, decide_eq_true_eq] at hdisturbs₁
    omega
  · rw [hstep, heq] at hresult
    rcases hresult with ⟨v, hv, hid⟩ | hid
    · rw [hid]
      exact h₁.start_moves hok₁ hbest hdisturbs₁ (maskLine l.1).2 l.2 hv
    · rw [hid]
      exact (Nat.lt_succ_of_lt hlt).ne'

/-! ## Runs -/

/-- A miner, and the lines that got a match with their ids. -/
structure History where
  drain : Drain
  matched : List (Text × ℕ)

def History.new (config : DrainConfig) : History := ⟨Drain.new config, []⟩

def History.step (h : History) (l : Line) : History :=
  let (d, m) := h.drain.addLine l.1 l.2
  ⟨d, h.matched ++ (m.map fun m => (l.1, m.templateId)).toList⟩

/-- The next line disturbs none of those that got a match. -/
def History.calm (h : History) (l : Line) : Bool :=
  h.matched.all fun x => !h.drain.disturbs (maskLine l.1).1 (maskLine x.1).1

/-- Along these lines, a line that gets a match gets the same id again at any later time. -/
def Stable (config : DrainConfig) (lines : List Line) : Prop :=
  ∀ (before after : List Line) (line : Text) (now later : ℕ) (m : Match),
    before ++ (line, now) :: after <+: lines →
    ((Runs.run step (Drain.new config) before).addLine line now).2 = some m →
    ∃ m', ((Runs.run step (Drain.new config) (before ++ (line, now) :: after)).addLine
        line later).2 = some m' ∧ m'.templateId = m.templateId ∧ m'.isNew = false

theorem drain_run (config : DrainConfig) (lines : List Line) :
    (Runs.run History.step (History.new config) lines).drain
      = Runs.run step (Drain.new config) lines := by
  induction lines using List.reverseRecOn with
  | nil => rfl
  | append_singleton lines l ih =>
    rw [Runs.run_concat, Runs.run_concat, ← ih]
    rfl

/-- The lines that got a match, with their ids. -/
theorem mem_matched {config : DrainConfig} {lines : List Line} {x : Text × ℕ} :
    x ∈ (Runs.run History.step (History.new config) lines).matched ↔
      ∃ before after now m, lines = before ++ (x.1, now) :: after ∧
        ((Runs.run step (Drain.new config) before).addLine x.1 now).2 = some m ∧
        m.templateId = x.2 := by
  induction lines using List.reverseRecOn with
  | nil => simp [Runs.run, History.new]
  | append_singleton lines l ih =>
    have hmatched : (Runs.run History.step (History.new config) (lines ++ [l])).matched
        = (Runs.run History.step (History.new config) lines).matched
          ++ (((Runs.run step (Drain.new config) lines).addLine l.1 l.2).2.map
            fun m => (l.1, m.templateId)).toList := by
      rw [Runs.run_concat, ← drain_run]
      rfl
    rw [hmatched, List.mem_append, ih, Option.mem_toList, Option.map_eq_some_iff]
    constructor
    · rintro (⟨before, after, now, m, rfl, hm, hid⟩ | ⟨m, hm, rfl⟩)
      · exact ⟨before, after ++ [l], now, m, by simp, hm, hid⟩
      · exact ⟨lines, [], l.2, m, rfl, hm, rfl⟩
    · rintro ⟨before, after, now, m, heq, hm, hid⟩
      rcases List.eq_nil_or_concat after with rfl | ⟨after, l', rfl⟩
      · obtain ⟨rfl, rfl⟩ := List.append_singleton_inj.mp heq
        exact .inr ⟨m, hm, by rw [hid]⟩
      · rw [List.concat_eq_append, ← List.cons_append, ← List.append_assoc,
          List.append_singleton_inj] at heq
        exact .inl ⟨before, after, now, m, heq.1, hm, hid⟩

/-- The lines that got a match are settled. -/
def History.Settled (h : History) : Prop :=
  h.drain.Ok ∧ ∀ x ∈ h.matched, h.drain.Settled (maskLine x.1).1 x.2

theorem History.Settled.step {h : History} (hs : h.Settled) {l : Line} (hcalm : h.calm l = true) :
    (h.step l).Settled := by
  obtain ⟨hok, hsettled⟩ := hs
  have hseen := hok.seen
  refine ⟨hok.addLine l.1 l.2, ?_⟩
  intro x hx
  rcases List.mem_append.mp hx with hx | hx
  · have hx' : { h.drain with linesSeen := h.drain.linesSeen + 1 }.Settled (maskLine x.1).1 x.2 :=
      ⟨(hsettled x hx).nonempty, (hsettled x hx).leaf⟩
    have hundisturbed : h.drain.disturbs (maskLine l.1).1 (maskLine x.1).1 = false := by
      simpa using List.all_eq_true.mp hcalm x hx
    exact hx'.step hseen hundisturbed _ _
  · obtain ⟨m, hm, rfl⟩ := Option.map_eq_some_iff.mp (Option.mem_toList.mp hx)
    exact settled_matchMasked hseen hm

theorem History.settled_run {config : DrainConfig} {lines : List Line}
    (h : Runs.Meets History.step (fun h l => h.calm l = true) (History.new config) lines) :
    (Runs.run History.step (History.new config) lines).Settled :=
  h.invariant (fun _ _ hs hcalm => hs.step hcalm) ⟨Ok.new config, by simp [History.new]⟩

/-- A line only joins a template if the threshold is at most 1. -/
theorem threshold_le_one {line : Text} {now : ℕ} {m : Match}
    (hm : (d.addLine line now).2 = some m) (hold : m.isNew = false) :
    d.config.similarityThreshold.le 1 = true := by
  set d₁ : Drain := { d with linesSeen := d.linesSeen + 1 } with hd₁
  change (d₁.matchMasked (maskLine line).1 (maskLine line).2 now).2 = some m at hm
  rcases d₁.matchMasked_cases (maskLine line).1 (maskLine line).2 now with ⟨-, heq⟩ |
    ⟨t, -, hbest, -⟩ | ⟨-, -, -, heq⟩ | ⟨-, -, -, heq⟩
  · rw [heq] at hm
    cases hm
  · obtain ⟨x, hx, -⟩ := Option.map_eq_some_iff.mp hbest
    obtain ⟨before, after, hsplit, -, -⟩ := Lists.lastMax_eq_some hx
    have hmem : x ∈ (d₁.scored (maskLine line).1).filter
        fun x => d₁.config.similarityThreshold.le x.2 := by
      rw [hsplit]
      simp
    obtain ⟨hscored, hle⟩ := List.mem_filter.mp hmem
    obtain ⟨u, -, rfl⟩ := List.mem_map.mp hscored
    exact Float64.F64.le_trans hle (similarity_le_one _ _)
  · rw [heq] at hm
    cases hm
  · rw [heq, Option.some.injEq] at hm
    subst hm
    cases hold

/-- Without templates, a line that is empty once masked, or that finds no room, adds none. -/
theorem addLine_barren (hnone : d.templates = []) {l : Line}
    (hline : d.config.maxTemplates = 0 ∨ (maskLine l.1).1 = []) :
    (d.step l).templates = [] ∧ (d.addLine l.1 l.2).2 = none := by
  set d₁ : Drain := { d with linesSeen := d.linesSeen + 1 } with hd₁
  have hresult : d.addLine l.1 l.2 = d₁.matchMasked (maskLine l.1).1 (maskLine l.1).2 l.2 := rfl
  rw [Drain.step, hresult]
  rcases d₁.matchMasked_cases (maskLine l.1).1 (maskLine l.1).2 l.2 with ⟨-, heq⟩ |
    ⟨t, -, hbest, -⟩ | ⟨-, -, -, heq⟩ | ⟨hne, -, hroom, -⟩
  · rw [heq]
    exact ⟨hnone, rfl⟩
  · have ht : t ∈ d.templates := (best_eq_some hbest).1
    rw [hnone] at ht
    cases ht
  · rw [heq]
    exact ⟨hnone, rfl⟩
  · rcases hline with hline | hline
    · change d.templates.length < d.config.maxTemplates at hroom
      omega
    · exact absurd hline hne

theorem templates_run_barren {config : DrainConfig} {lines : List Line}
    (hlines : config.maxTemplates = 0 ∨ ∀ l ∈ lines, (maskLine l.1).1 = []) :
    (Runs.run step (Drain.new config) lines).templates = [] := by
  induction lines using List.reverseRecOn with
  | nil => rfl
  | append_singleton lines l ih =>
    rw [Runs.run_concat]
    refine (addLine_barren (ih ?_) ?_).1
    · exact hlines.imp_right fun h l hl => h l (List.mem_append_left _ hl)
    · rw [config_run]
      exact hlines.imp_right fun h => h l (by simp)

/-- The first line that is not empty once masked gets a match, if there is room for it. -/
theorem exists_match {config : DrainConfig} {lines : List Line} (hroom : config.maxTemplates ≠ 0)
    {l : Line} (hl : l ∈ lines) (hne : (maskLine l.1).1 ≠ []) :
    ∃ before after line now m, lines = before ++ (line, now) :: after ∧
      ((Runs.run step (Drain.new config) before).addLine line now).2 = some m := by
  set p : Line → Bool := fun l => (maskLine l.1).1.isEmpty with hp
  obtain ⟨x, after, hdrop⟩ : ∃ x after, lines.dropWhile p = x :: after := by
    refine List.exists_cons_of_ne_nil fun hnil => hne ?_
    simpa [hp] using List.dropWhile_eq_nil_iff.mp hnil l hl
  have hx : (maskLine x.1).1 ≠ [] := by
    have hhead := List.head?_dropWhile_not p lines
    rw [hdrop] at hhead
    simpa [hp] using hhead
  set before := lines.takeWhile p with hbefore
  have hnone : (Runs.run step (Drain.new config) before).templates = [] := by
    refine templates_run_barren (.inr fun l hl => ?_)
    simpa [hp] using List.mem_takeWhile_imp hl
  have hlines : lines = before ++ (x.1, x.2) :: after := by
    rw [hbefore, ← List.takeWhile_append_dropWhile (p := p) (l := lines), hdrop]
    simp [← hdrop]
  set d := Runs.run step (Drain.new config) before with hd
  set d₁ : Drain := { d with linesSeen := d.linesSeen + 1 } with hd₁
  have hcases := d₁.matchMasked_cases (maskLine x.1).1 (maskLine x.1).2 x.2
  rcases hcases with ⟨hempty, -⟩ | ⟨t, -, hbest, -⟩ | ⟨-, -, hfull, -⟩ | ⟨-, -, -, heq⟩
  · exact absurd hempty hx
  · have ht : t ∈ d.templates := (best_eq_some hbest).1
    rw [hnone] at ht
    cases ht
  · change d.config.maxTemplates ≤ d.templates.length at hfull
    rw [hnone, hd, config_run, List.length_nil] at hfull
    omega
  · refine ⟨before, after, x.1, x.2, (d₁.start (maskLine x.1).1 (maskLine x.1).2 x.2).2, hlines, ?_⟩
    show (d₁.matchMasked (maskLine x.1).1 (maskLine x.1).2 x.2).2 = _
    rw [heq]

/-- Template ids are stable along a run exactly if every line of it is calm (it disturbs no
line that got a match before), and a score can reach the threshold. Otherwise no line may get
a match at all: there is no room for templates, or every line is empty once masked. -/
theorem template_ids_stable_iff (config : DrainConfig) (lines : List Line) :
    Stable config lines ↔
      Runs.Meets History.step (fun h l => h.calm l = true) (History.new config) lines ∧
        (config.similarityThreshold.le 1 = true ∨ config.maxTemplates = 0 ∨
          ∀ l ∈ lines, (maskLine l.1).1 = []) := by
  constructor
  · intro hstable
    constructor
    · induction lines using List.reverseRecOn with
      | nil => exact Runs.Meets.nil _
      | append_singleton lines l ih =>
        have hmeets := ih fun before after line now later m hpre =>
          hstable before after line now later m (hpre.trans (List.prefix_append _ _))
        obtain ⟨hok, hsettled⟩ := History.settled_run hmeets
        refine hmeets.concat (List.all_eq_true.mpr fun x hx => ?_)
        rw [Bool.not_eq_true']
        by_contra hdisturbs
        rw [Bool.not_eq_false] at hdisturbs
        -- the line `x.1` would be moved by `l`, but its id is stable
        obtain ⟨before, after, now, m, hlines, hm, hid⟩ := mem_matched.mp hx
        have hlast : before ++ (x.1, now) :: (after ++ [l]) = lines ++ [l] := by simp [hlines]
        obtain ⟨m', hm', hid', -⟩ :=
          hstable before (after ++ [l]) x.1 now 0 m (hlast ▸ List.prefix_rfl) hm
        rw [hlast, Runs.run_concat, ← drain_run] at hm'
        have hmoves := (hsettled x hx).moves hok hdisturbs hm'
        exact hmoves (hid'.trans hid)
    · -- a line that gets a match joins its template the next time
      rw [or_iff_not_imp_right]
      intro hmatch
      push Not at hmatch
      obtain ⟨hroom, l, hl, hne⟩ := hmatch
      obtain ⟨before, after, line, now, m, rfl, hm⟩ := exists_match hroom hl hne
      obtain ⟨m', hm', -, hold⟩ := hstable before after line now 0 m List.prefix_rfl hm
      have hle := threshold_le_one hm' hold
      rwa [config_run] at hle
  · rintro ⟨hmeets, hthreshold | hbarren⟩ before after line now later m hpre hm
    · obtain ⟨rest, rfl⟩ := hpre
      obtain ⟨-, hsettled⟩ := History.settled_run hmeets.append_left
      have hline := hsettled (line, m.templateId)
        (mem_matched.mpr ⟨before, after, now, m, rfl, hm, rfl⟩)
      rw [drain_run] at hline
      exact hline.addLine (by rwa [config_run]) later
    · obtain ⟨rest, rfl⟩ := hpre
      have hnone : (Runs.run step (Drain.new config) before).templates = [] :=
        templates_run_barren (hbarren.imp_right fun h l hl => h l (by simp [hl]))
      have hline : config.maxTemplates = 0 ∨ (maskLine line).1 = [] :=
        hbarren.imp_right fun h => h (line, now) (by simp)
      rw [← config_run config before] at hline
      rw [(addLine_barren hnone (l := (line, now)) hline).2] at hm
      cases hm

/-- A line seen in second 0. -/
def lineOf (s : String) : Line := (s.toList, 0)

/-- The second line takes the wildcard branch to the first template. The third one opens the
branch of its first word, and the second line then starts a template there. -/
theorem template_id_moves :
    let lines := [lineOf "42 started", lineOf "alpha started", lineOf "alpha stopped"]
    ((Runs.run step (Drain.new .default) [lineOf "42 started"]).addLine "alpha started".toList
        0).2.map Match.templateId = some 1 ∧
      ((Runs.run step (Drain.new .default) lines).addLine "alpha started".toList 0).2.map
        (fun m => (m.templateId, m.isNew)) = some (3, true) ∧
      ¬ Stable .default lines := by
  intro lines
  have hfirst : ((Runs.run step (Drain.new .default) [lineOf "42 started"]).addLine
      "alpha started".toList 0).2.map Match.templateId = some 1 := by decide +kernel
  have hagain : ((Runs.run step (Drain.new .default) lines).addLine "alpha started".toList 0).2.map
      (fun m => (m.templateId, m.isNew)) = some (3, true) := by decide +kernel
  refine ⟨hfirst, hagain, fun hstable => ?_⟩
  obtain ⟨m, hm, hid⟩ := Option.map_eq_some_iff.mp hfirst
  obtain ⟨m', hm', hid', -⟩ := hstable [lineOf "42 started"] [lineOf "alpha stopped"]
    "alpha started".toList 0 0 m List.prefix_rfl hm
  obtain ⟨m'', hm'', hid''⟩ := Option.map_eq_some_iff.mp hagain
  have hsame : m' = m'' := Option.some.inj (hm'.symm.trans hm'')
  rw [hsame, hid, (Prod.mk.inj hid'').1] at hid'
  cases hid'

end Drain

end LogLess
