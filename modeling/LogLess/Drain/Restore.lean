import LogLess.Drain.Miner
import LogLess.Lib.Runs

/-!
# Restarts

`restore` rebuilds the parse tree from the texts the templates have now, not from those they
were started with. The tree is still the same: a template is widened by lines of its own
leaf only, and such a line differs from it at a key of the tree only where both took the
wildcard branch.
-/

namespace LogLess

open WildTree Mask

/-! ## The tree of some templates -/

section

variable (c : DrainConfig)

/-- The tree that `restore` builds. -/
def treeOf (templates : List Template) : Roots :=
  templates.foldl (fun roots t => c.insertIntoTree roots t.tokens t.id) []

/-- The branches on which tokens are inserted. -/
def treePath (roots : Roots) (tokens : List Text) : List Text :=
  ((Assoc.get roots tokens.length).getD .empty).path wildcard c.maxChildren (c.treeKeys tokens)

/-- The id is in the tree for `n` tokens, at the end of these branches. -/
def Roots.At (roots : Roots) (n : ℕ) (p : List Text) (id : ℕ) : Prop :=
  ∃ node, Assoc.get roots n = some node ∧ node.At p id

variable {c}

theorem at_insertIntoTree {roots : Roots} {tokens : List Text} {id i n : ℕ} {p : List Text} :
    (c.insertIntoTree roots tokens id).At n p i ↔
      roots.At n p i ∨ (n = tokens.length ∧ p = treePath c roots tokens ∧ i = id) := by
  simp only [Roots.At, DrainConfig.insertIntoTree, Assoc.get_insert]
  by_cases hn : n = tokens.length
  · subst hn
    simp only [if_true, Option.some.injEq, exists_eq_left', Node.at_insert, treePath, true_and]
    cases hroot : Assoc.get roots tokens.length with
    | none => simp [Node.not_at_empty]
    | some node => simp
  · simp [hn]

theorem at_foldl_of_notMem {ts : List Template} {roots : Roots} {n i : ℕ} {p : List Text}
    (h : i ∉ ts.map Template.id) :
    (ts.foldl (fun roots t => c.insertIntoTree roots t.tokens t.id) roots).At n p i ↔
      roots.At n p i := by
  induction ts generalizing roots with
  | nil => rfl
  | cons t ts ih =>
    rw [List.map_cons, List.mem_cons, not_or] at h
    rw [List.foldl_cons, ih h.2, at_insertIntoTree]
    simp [h.1]

/-- A template is in one place: where it was inserted. -/
theorem at_treeOf {before after : List Template} {t : Template} {n : ℕ} {p : List Text}
    (hbefore : t.id ∉ before.map Template.id) (hafter : t.id ∉ after.map Template.id) :
    (treeOf c (before ++ t :: after)).At n p t.id ↔
      n = t.tokens.length ∧ p = treePath c (treeOf c before) t.tokens := by
  have hnone : ¬ (treeOf c before).At n p t.id := by
    rw [treeOf, at_foldl_of_notMem hbefore]
    simp [Roots.At]
  rw [treeOf, List.foldl_append, List.foldl_cons, at_foldl_of_notMem hafter, at_insertIntoTree]
  have hfold : before.foldl (fun roots t => c.insertIntoTree roots t.tokens t.id) []
      = treeOf c before := rfl
  rw [hfold]
  simp [hnone]

/-- What is found for a line is at the end of its route, in the tree for its length. -/
theorem at_of_mem_leafTemplates {roots : Roots} {tokens : List Text} {id : ℕ}
    (h : id ∈ c.leafTemplates roots tokens) :
    ∃ node, Assoc.get roots tokens.length = some node ∧
      roots.At tokens.length (node.route wildcard (c.treeKeys tokens)) id := by
  rw [DrainConfig.leafTemplates] at h
  split at h
  · cases h
  · next node hnode => exact ⟨node, hnode, node, hnode, Node.at_of_mem_lookup h⟩

end

/-! ## Widening -/

theorem isPlaceholder_wildcard : isPlaceholder wildcard = true := by decide

theorem treeKey_wildcard : treeKey wildcard = wildcard := by
  rw [treeKey, if_pos isPlaceholder_wildcard]

theorem treeKey_eq_self {token : Text} (h : treeKey token ≠ wildcard) : treeKey token = token := by
  rw [treeKey] at h ⊢
  split
  · next hp => exact absurd (if_pos hp) h
  · rfl

@[simp] theorem length_mergeInto (template tokens : List Text) :
    (mergeInto template tokens).1.length = template.length := by
  fun_induction mergeInto template tokens <;> simp_all

theorem mergeInto_of_not_widened {template tokens : List Text}
    (h : (mergeInto template tokens).2 = false) : (mergeInto template tokens).1 = template := by
  induction template generalizing tokens with
  | nil => rw [mergeInto]; simp
  | cons slot template ih =>
    cases tokens with
    | nil => rw [mergeInto]; simp
    | cons token tokens =>
      simp only [mergeInto] at h ⊢
      split at h
      · cases h
      · next hslot =>
        rw [if_neg hslot, ih h]

/-- Where the branch of a widened slot is that of the line's token too, it is the wildcard. -/
theorem treeKey_widened {slot token b : Text} (hslot : b = treeKey slot ∨ b = wildcard)
    (htoken : b = treeKey token ∨ b = wildcard) (hne : slot ≠ token) : b = wildcard := by
  by_contra hb
  have hs : b = treeKey slot := hslot.resolve_right hb
  have ht : b = treeKey token := htoken.resolve_right hb
  rw [hs] at hb
  have hslot' : treeKey slot = slot := treeKey_eq_self hb
  rw [← hs, ht] at hb
  have htoken' : treeKey token = token := treeKey_eq_self hb
  exact hne (by rw [← hslot', ← hs, ht, htoken'])

/-- The keys of a widened template differ from its old ones on the wildcard branch only, if
the line that widened it takes the same branches. -/
theorem treeKeys_mergeInto {n : ℕ} {template tokens p : List Text}
    (hlen : template.length = tokens.length)
    (htemplate : List.Forall₂ (fun k b => b = k ∨ b = wildcard)
      ((template.take n).map treeKey) p)
    (htokens : List.Forall₂ (fun k b => b = k ∨ b = wildcard) ((tokens.take n).map treeKey) p) :
    List.Forall₂ (fun (kk : Text × Text) b => kk.2 = kk.1 ∨ (b = wildcard ∧ kk.2 = wildcard))
      (((template.take n).map treeKey).zip (((mergeInto template tokens).1.take n).map treeKey))
      p := by
  induction n generalizing template tokens p with
  | zero => simpa using htemplate
  | succ n ih =>
    cases template with
    | nil => simpa using htemplate
    | cons slot template =>
      cases tokens with
      | nil => cases hlen
      | cons token tokens =>
        rw [List.take_succ_cons, List.map_cons, List.forall₂_cons_left_iff] at htemplate htokens
        obtain ⟨b, p', hslot, hrest, rfl⟩ := htemplate
        obtain ⟨b', p'', htoken, hrest', heq⟩ := htokens
        obtain ⟨rfl, rfl⟩ := List.cons.inj heq
        have hmerged := ih (by simpa using hlen) hrest hrest'
        simp only [mergeInto]
        split
        · next hwide =>
          simp only [Bool.and_eq_true, decide_eq_true_eq] at hwide
          refine .cons (.inr ⟨treeKey_widened hslot htoken hwide.1, treeKey_wildcard⟩) hmerged
        · exact .cons (.inl rfl) hmerged

/-- A template may be inserted as wide as a line of its leaf has made it. -/
theorem insertIntoTree_mergeInto {c : DrainConfig} {before after : List Template} {t : Template}
    {masked : List Text} (hbefore : t.id ∉ before.map Template.id)
    (hafter : t.id ∉ after.map Template.id)
    (hleaf : t.id ∈ c.leafTemplates (treeOf c (before ++ t :: after)) masked) :
    c.insertIntoTree (treeOf c before) (mergeInto t.tokens masked).1 t.id
      = c.insertIntoTree (treeOf c before) t.tokens t.id := by
  obtain ⟨node, -, hat⟩ := at_of_mem_leafTemplates hleaf
  obtain ⟨hlen, hroute⟩ := (at_treeOf hbefore hafter).mp hat
  set root := (Assoc.get (treeOf c before) t.tokens.length).getD .empty with hroot
  have hpath : node.route wildcard (c.treeKeys masked)
      = root.path wildcard c.maxChildren (c.treeKeys t.tokens) := hroute
  have hkeys : List.Forall₂ (fun k b => b = k ∨ b = wildcard) (c.treeKeys t.tokens)
      (root.path wildcard c.maxChildren (c.treeKeys t.tokens)) := root.path_keys _
  -- the route of the line is the path of the template, so it is as long as the keys
  have hline : List.Forall₂ (fun k b => b = k ∨ b = wildcard) (c.treeKeys masked)
      (root.path wildcard c.maxChildren (c.treeKeys t.tokens)) := by
    obtain ⟨n, hn⟩ : ∃ n, List.Forall₂ (fun k b => b = k ∨ b = wildcard)
        ((c.treeKeys masked).take n) (node.route wildcard (c.treeKeys masked)) :=
      node.route_keys _
    rw [hpath] at hn
    have h1 := hn.length_eq
    have h2 := hkeys.length_eq
    have hsame : (c.treeKeys masked).length = (c.treeKeys t.tokens).length := by
      simp [DrainConfig.treeKeys, hlen]
    have htake : (c.treeKeys masked).take n = c.treeKeys masked :=
      List.take_of_length_le (by rw [List.length_take] at h1; omega)
    rwa [htake] at hn
  have hwide : root.path wildcard c.maxChildren (c.treeKeys (mergeInto t.tokens masked).1)
      = root.path wildcard c.maxChildren (c.treeKeys t.tokens) :=
    Node.path_eq (treeKeys_mergeInto hlen.symm hkeys hline) (by simp [DrainConfig.treeKeys])
  rw [DrainConfig.insertIntoTree, DrainConfig.insertIntoTree, length_mergeInto, ← hroot,
    Node.insert_congr hwide]

/-! ## What a miner knows of its templates -/

namespace Drain

variable {d : Drain}

theorem template_eq_some {id : ℕ} {t : Template} (h : d.template id = some t) :
    t ∈ d.templates ∧ t.id = id := by
  exact ⟨List.mem_of_find?_eq_some h, by simpa using List.find?_some h⟩

/-- A template that is chosen is one of the line's leaf. -/
theorem best_eq_some {masked : List Text} {t : Template} (h : d.best masked = some t) :
    t ∈ d.templates ∧ t.id ∈ d.config.leafTemplates d.roots masked := by
  obtain ⟨x, hx, rfl⟩ := Option.map_eq_some_iff.mp h
  obtain ⟨before, after, hsplit, -, -⟩ := Lists.lastMax_eq_some hx
  have hmem : x ∈ d.scored masked := by
    have : x ∈ (d.scored masked).filter fun x => d.config.similarityThreshold.le x.2 := by
      rw [hsplit]
      simp
    exact (List.mem_filter.mp this).1
  obtain ⟨t, ht, rfl⟩ := List.mem_map.mp hmem
  obtain ⟨id, hid, ht⟩ := List.mem_filterMap.mp ht
  obtain ⟨htemplates, rfl⟩ := template_eq_some ht
  exact ⟨htemplates, hid⟩

variable (d) in
/-- What a line can do: nothing when it is empty, join a template, find no room for a new
one, or start one. -/
theorem matchMasked_cases (masked raw : List Text) (now : ℕ) :
    (masked = [] ∧ d.matchMasked masked raw now = (d, none)) ∨
    (∃ t, masked ≠ [] ∧ d.best masked = some t ∧ d.matchMasked masked raw now
      = ((d.join t masked raw now).1, some (d.join t masked raw now).2)) ∨
    (masked ≠ [] ∧ d.best masked = none ∧ d.config.maxTemplates ≤ d.templates.length ∧
      d.matchMasked masked raw now = ({ d with untemplated := d.untemplated + 1 }, none)) ∨
    (masked ≠ [] ∧ d.best masked = none ∧ d.templates.length < d.config.maxTemplates ∧
      d.matchMasked masked raw now
        = ((d.start masked raw now).1, some (d.start masked raw now).2)) := by
  rw [Drain.matchMasked]
  by_cases hempty : masked.isEmpty = true
  · rw [if_pos hempty]
    exact .inl ⟨List.isEmpty_iff.mp hempty, rfl⟩
  · have hne : masked ≠ [] := by simpa using hempty
    rw [if_neg hempty]
    cases hbest : d.best masked with
    | some t => exact .inr (.inl ⟨t, hne, rfl, rfl⟩)
    | none =>
      by_cases hfull : d.config.maxTemplates ≤ d.templates.length
      · simp only [if_pos hfull]
        exact .inr (.inr (.inl ⟨hne, trivial, hfull, trivial⟩))
      · simp only [if_neg hfull]
        exact .inr (.inr (.inr ⟨hne, trivial, not_le.mp hfull, trivial⟩))

/-- Ids increase, all of them below the next one; the tree, the hashes and the lineages are
those of the templates as they are. -/
structure Ok (d : Drain) : Prop where
  ids : (d.templates.map Template.id).Pairwise (· < ·)
  nextId : d.nextId = d.templates.foldl (fun n t => max n (t.id + 1)) 1
  roots : d.roots = treeOf d.config d.templates
  shapeIds : ∀ id, Assoc.get d.shapeIds id = (d.template id).map Template.fingerprint
  lineages : ∀ h, h ∈ d.lineages ↔ ∃ t ∈ d.templates, t.lineageId = h

theorem Ok.new (config : DrainConfig) : (new config).Ok where
  ids := List.Pairwise.nil
  nextId := rfl
  roots := rfl
  shapeIds _ := rfl
  lineages := by simp [Drain.new]

theorem foldl_max_le (ts : List Template) (n : ℕ) :
    n ≤ ts.foldl (fun n t => max n (t.id + 1)) n ∧
      ∀ t ∈ ts, t.id < ts.foldl (fun n t => max n (t.id + 1)) n := by
  induction ts generalizing n with
  | nil => simp
  | cons u ts ih =>
    obtain ⟨hle, hlt⟩ := ih (max n (u.id + 1))
    rw [List.foldl_cons]
    refine ⟨(le_max_left _ _).trans hle, ?_⟩
    intro t ht
    rcases List.mem_cons.mp ht with rfl | ht
    · have := (le_max_right n (t.id + 1)).trans hle
      omega
    · exact hlt t ht

theorem Ok.id_lt_nextId (h : d.Ok) {t : Template} (ht : t ∈ d.templates) : t.id < d.nextId := by
  rw [h.nextId]
  exact (foldl_max_le d.templates 1).2 t ht

theorem Ok.one_le_nextId (h : d.Ok) : 1 ≤ d.nextId := by
  rw [h.nextId]
  exact (foldl_max_le d.templates 1).1

theorem template_append {ts : List Template} {t : Template} (hnew : t.id ∉ ts.map Template.id)
    (id : ℕ) : (ts ++ [t]).find? (fun u => u.id == id)
      = if id = t.id then some t else ts.find? fun u => u.id == id := by
  rw [List.find?_append]
  split
  · next hid =>
    subst hid
    rw [List.find?_eq_none.mpr]
    · simp
    · intro u hu
      rw [beq_iff_eq]
      exact fun heq => hnew (heq ▸ List.mem_map_of_mem hu)
  · next hid => simp [Ne.symm hid]

/-- A new template at the end, in the tree, with its hash and its lineage. -/
theorem Ok.concat (h : d.Ok) {t : Template} (hnext : ∀ u ∈ d.templates, u.id < t.id) {d' : Drain}
    (hconfig : d'.config = d.config) (htemplates : d'.templates = d.templates ++ [t])
    (hnextId : d'.nextId = max d.nextId (t.id + 1))
    (hroots : d'.roots = d.config.insertIntoTree d.roots t.tokens t.id)
    (hshape : d'.shapeIds = Assoc.insert d.shapeIds t.id t.fingerprint)
    (hlineage : ∀ l, l ∈ d'.lineages ↔ l = t.lineageId ∨ l ∈ d.lineages) : d'.Ok where
  ids := by
    rw [htemplates, List.map_append, List.pairwise_append]
    refine ⟨h.ids, by simp, ?_⟩
    intro a ha b hb
    obtain ⟨u, hu, rfl⟩ := List.mem_map.mp ha
    obtain rfl : b = t.id := by simpa using hb
    exact hnext u hu
  nextId := by rw [hnextId, htemplates, List.foldl_concat, h.nextId]
  roots := by rw [hroots, hconfig, htemplates, treeOf, List.foldl_concat, h.roots, treeOf]
  shapeIds id := by
    have hnew : t.id ∉ d.templates.map Template.id := by
      intro hmem
      obtain ⟨u, hu, heq⟩ := List.mem_map.mp hmem
      have := hnext u hu
      omega
    rw [hshape, Assoc.get_insert, template, htemplates, template_append hnew]
    split
    · rfl
    · exact h.shapeIds id
  lineages l := by
    rw [hlineage, h.lineages, htemplates]
    constructor
    · rintro (rfl | ⟨u, hu, rfl⟩)
      · exact ⟨t, by simp, rfl⟩
      · exact ⟨u, List.mem_append_left _ hu, rfl⟩
    · rintro ⟨u, hu, rfl⟩
      rcases List.mem_append.mp hu with hu | hu
      · exact .inr ⟨u, hu, rfl⟩
      · exact .inl (by rw [List.mem_singleton.mp hu])

theorem templates_putTemplate_of_new {t : Template} (h : ∀ u ∈ d.templates, u.id < t.id) :
    (d.putTemplate t).templates = d.templates ++ [t] := by
  have hany : (d.templates.any fun u => u.id == t.id) = false := by
    rw [List.any_eq_false]
    intro u hu
    have := h u hu
    rw [beq_iff_eq]
    omega
  simp only [putTemplate, hany]
  rfl

theorem mem_insertLineage {l m : ℕ} :
    l ∈ (d.insertLineage m).lineages ↔ l = m ∨ l ∈ d.lineages := by
  simp only [insertLineage, List.contains_iff_mem]
  split
  · next hm =>
    refine ⟨.inr, ?_⟩
    rintro (rfl | hl)
    · exact hm
    · exact hl
  · rw [List.mem_append, List.mem_singleton, or_comm]

theorem Ok.restoreTemplate (h : d.Ok) {t : Template} (hnext : ∀ u ∈ d.templates, u.id < t.id) :
    (d.restoreTemplate t).Ok ∧ (d.restoreTemplate t).templates = d.templates ++ [t] := by
  have htemplates : (d.restoreTemplate t).templates = d.templates ++ [t] :=
    templates_putTemplate_of_new hnext
  exact ⟨h.concat hnext rfl htemplates rfl rfl rfl fun l => mem_insertLineage, htemplates⟩

/-- Templates in the order of their ids are restored as they are. -/
theorem Ok.restore (config : DrainConfig) {ts : List Template}
    (h : (ts.map Template.id).Pairwise (· < ·)) :
    (restore config ts).Ok ∧ (restore config ts).templates = ts ∧
      (restore config ts).config = config := by
  induction ts using List.reverseRecOn with
  | nil => exact ⟨Ok.new config, rfl, rfl⟩
  | append_singleton ts t ih =>
    rw [List.map_append, List.pairwise_append] at h
    obtain ⟨hts, -, hlt⟩ := h
    obtain ⟨hok, htemplates, hconfig⟩ := ih hts
    have hnext : ∀ u ∈ (Drain.restore config ts).templates, u.id < t.id := by
      rw [htemplates]
      intro u hu
      exact hlt u.id (List.mem_map_of_mem hu) t.id (by simp)
    have hrestore : Drain.restore config (ts ++ [t])
        = (Drain.restore config ts).restoreTemplate t := List.foldl_concat ..
    obtain ⟨hok', htemplates'⟩ := hok.restoreTemplate hnext
    rw [hrestore]
    refine ⟨hok', ?_, hconfig⟩
    rw [htemplates', htemplates]

/-! ## Lines -/

theorem Ok.start (h : d.Ok) (masked raw : List Text) (now : ℕ) :
    (d.start masked raw now).1.Ok := by
  set t : Template := ⟨d.nextId, masked, 1, now, now,
    if d.lineages.contains (fingerprintOf (joinTokens masked)) then
      fingerprintOf (joinTokens masked ++ [Char.ofNat 0x1F] ++ Decimal.ofNat d.nextId)
    else fingerprintOf (joinTokens masked)⟩ with ht
  have hnext : ∀ u ∈ d.templates, u.id < t.id := fun u hu => h.id_lt_nextId hu
  refine h.concat hnext rfl (templates_putTemplate_of_new hnext) ?_ rfl rfl
    fun l => mem_insertLineage
  show d.nextId + 1 = max d.nextId (d.nextId + 1)
  omega

theorem find_replace {before after : List Template} {t t' : Template} (hid : t'.id = t.id)
    (hbefore : t.id ∉ before.map Template.id) (id : ℕ) :
    (before ++ t' :: after).find? (fun u => u.id == id)
      = if id = t.id then some t' else (before ++ t :: after).find? fun u => u.id == id := by
  rw [List.find?_append, List.find?_append]
  split
  · next h =>
    subst h
    rw [List.find?_eq_none.mpr]
    · simp [hid]
    · intro u hu
      rw [beq_iff_eq]
      exact fun heq => hbefore (heq ▸ List.mem_map_of_mem hu)
  · next h => simp [hid, Ne.symm h]

/-- A template of increasing ids stands between others. -/
theorem Ok.split (h : d.Ok) {t : Template} (ht : t ∈ d.templates) :
    ∃ before after, d.templates = before ++ t :: after ∧ t.id ∉ before.map Template.id ∧
      t.id ∉ after.map Template.id := by
  obtain ⟨before, after, hsplit⟩ := List.append_of_mem ht
  have hids := h.ids
  rw [hsplit, List.map_append, List.map_cons, List.pairwise_append, List.pairwise_cons] at hids
  obtain ⟨-, ⟨hafter, -⟩, hbefore⟩ := hids
  refine ⟨before, after, hsplit, ?_, ?_⟩
  · intro hmem
    exact lt_irrefl _ (hbefore t.id hmem t.id List.mem_cons_self)
  · intro hmem
    exact lt_irrefl _ (hafter t.id hmem)

/-- A template replaced under its id. -/
theorem templates_putTemplate {before after : List Template} {t t' : Template}
    (hsplit : d.templates = before ++ t :: after) (hid : t'.id = t.id)
    (hbefore : t.id ∉ before.map Template.id) (hafter : t.id ∉ after.map Template.id) :
    (d.putTemplate t').templates = before ++ t' :: after := by
  have hsame : ∀ ts : List Template, t.id ∉ ts.map Template.id →
      ts.map (fun u => if u.id == t'.id then t' else u) = ts := by
    intro ts hts
    conv_rhs => rw [← List.map_id ts]
    apply List.map_congr_left
    intro u hu
    have hne : u.id ≠ t'.id := by
      rw [hid]
      exact fun heq => hts (heq ▸ List.mem_map_of_mem hu)
    simp [hne]
  have hany : ((before ++ t :: after).any fun u => u.id == t'.id) = true := by simp [hid]
  have hself : (t.id == t'.id) = true := by simp [hid]
  simp only [putTemplate, hsplit, hany, if_true, List.map_append, List.map_cons,
    hsame before hbefore, hsame after hafter, hself]

/-- A template as a line has left it. -/
def joined (t : Template) (masked : List Text) (now : ℕ) : Template :=
  { t with
    tokens := (mergeInto t.tokens masked).1
    count := t.count + 1
    lastSeenUnixSecs := now }

variable (d) in
/-- What a line that joins a template changes. -/
theorem join_fields (t : Template) (masked raw : List Text) (now : ℕ) :
    let d' := (d.join t masked raw now).1
    d'.config = d.config ∧ d'.roots = d.roots ∧ d'.nextId = d.nextId ∧
      d'.lineages = d.lineages ∧ d'.templates = (d.putTemplate (joined t masked now)).templates ∧
      d'.shapeIds = (if (mergeInto t.tokens masked).2 then
        Assoc.insert d.shapeIds t.id (joined t masked now).fingerprint else d.shapeIds) := by
  simp only [join, joined]
  split <;> exact ⟨rfl, rfl, rfl, rfl, rfl, rfl⟩

theorem Ok.join (h : d.Ok) {t : Template} {masked : List Text} (ht : t ∈ d.templates)
    (hleaf : t.id ∈ d.config.leafTemplates d.roots masked) (raw : List Text) (now : ℕ) :
    (d.join t masked raw now).1.Ok := by
  obtain ⟨before, after, hsplit, hbefore, hafter⟩ := h.split ht
  obtain ⟨hconfig, hroots, hnextId, hlineages, htemplates, hshapeIds⟩ :=
    d.join_fields t masked raw now
  set t' := joined t masked now with ht'
  have hid : t'.id = t.id := rfl
  rw [templates_putTemplate hsplit hid hbefore hafter] at htemplates
  refine ⟨?_, ?_, ?_, ?_, ?_⟩
  · have hids := h.ids
    rw [hsplit] at hids
    rw [htemplates]
    simpa [ht', joined] using hids
  · have hnext := h.nextId
    rw [hsplit] at hnext
    rw [hnextId, htemplates, hnext]
    simp [ht', joined]
  · rw [hroots, hconfig, htemplates, h.roots, hsplit, treeOf, treeOf, List.foldl_append,
      List.foldl_append, List.foldl_cons, List.foldl_cons]
    have hinsert := insertIntoTree_mergeInto hbefore hafter (show t.id ∈ _ by rwa [← hsplit, ← h.roots])
    exact congrArg (after.foldl _) hinsert.symm
  · intro id
    have htemplate : (d.join t masked raw now).1.template id
        = if id = t.id then some t' else d.template id := by
      rw [template, htemplates, find_replace hid hbefore, ← hsplit]
      rfl
    rw [htemplate, hshapeIds]
    by_cases hid : id = t.id
    · subst hid
      have hold : d.template t.id = some t := by
        rw [template, hsplit, find_replace rfl hbefore, if_pos rfl]
      split
      · simp [Assoc.get_insert]
      · next hwide =>
        have hsame := mergeInto_of_not_widened (Bool.eq_false_iff.mpr hwide)
        rw [h.shapeIds, hold]
        simp [ht', joined, Template.fingerprint, Template.text, hsame]
    · rw [if_neg hid, ← h.shapeIds]
      split
      · rw [Assoc.get_insert, if_neg hid]
      · rfl
  · intro l
    rw [hlineages, h.lineages, htemplates, hsplit, ← List.mem_map, ← List.mem_map]
    simp [ht', joined]

theorem Ok.matchMasked (h : d.Ok) (masked raw : List Text) (now : ℕ) :
    (d.matchMasked masked raw now).1.Ok := by
  rcases d.matchMasked_cases masked raw now with ⟨-, heq⟩ | ⟨t, -, hbest, heq⟩ | ⟨-, -, -, heq⟩ |
    ⟨-, -, -, heq⟩
  · rw [heq]
    exact h
  · obtain ⟨ht, hleaf⟩ := best_eq_some hbest
    rw [heq]
    exact h.join ht hleaf raw now
  · rw [heq]
    exact ⟨h.ids, h.nextId, h.roots, h.shapeIds, h.lineages⟩
  · rw [heq]
    exact h.start masked raw now

theorem Ok.seen (h : d.Ok) : { d with linesSeen := d.linesSeen + 1 }.Ok :=
  ⟨h.ids, h.nextId, h.roots, h.shapeIds, h.lineages⟩

theorem Ok.addLine (h : d.Ok) (line : Text) (now : ℕ) : (d.addLine line now).1.Ok :=
  h.seen.matchMasked _ _ _

/-! ## Two miners with the same templates -/

/-- Two miners in order, with one configuration and the same templates. -/
structure Alike (d e : Drain) : Prop where
  left : d.Ok
  right : e.Ok
  config : e.config = d.config
  templates : e.templates = d.templates

variable {e : Drain}

theorem Alike.roots (h : d.Alike e) : e.roots = d.roots := by
  rw [h.right.roots, h.left.roots, h.config, h.templates]

theorem Alike.nextId (h : d.Alike e) : e.nextId = d.nextId := by
  rw [h.right.nextId, h.left.nextId, h.templates]

theorem Alike.template (h : d.Alike e) : e.template = d.template := by
  funext id
  rw [Drain.template, Drain.template, h.templates]

theorem Alike.get_shapeIds (h : d.Alike e) (id : ℕ) :
    Assoc.get e.shapeIds id = Assoc.get d.shapeIds id := by
  rw [h.right.shapeIds, h.left.shapeIds, h.template]

theorem Alike.contains_lineages (h : d.Alike e) (l : ℕ) :
    e.lineages.contains l = d.lineages.contains l := by
  rw [Bool.eq_iff_iff, List.contains_iff_mem, List.contains_iff_mem, h.right.lineages,
    h.left.lineages, h.templates]

theorem Alike.best (h : d.Alike e) (masked : List Text) : e.best masked = d.best masked := by
  rw [Drain.best, Drain.best, scored, scored, h.config, h.roots, h.template]

theorem Alike.join (h : d.Alike e) (t : Template) (masked raw : List Text) (now : ℕ) :
    (e.join t masked raw now).2 = (d.join t masked raw now).2 ∧
      (e.join t masked raw now).1.templates = (d.join t masked raw now).1.templates := by
  constructor
  · simp only [Drain.join]
    split
    · rfl
    · simp only [putTemplate, h.get_shapeIds]
  · rw [(e.join_fields t masked raw now).2.2.2.2.1, (d.join_fields t masked raw now).2.2.2.2.1]
    simp only [putTemplate, h.templates]

theorem Alike.start (h : d.Alike e) (masked raw : List Text) (now : ℕ) :
    (e.start masked raw now).2 = (d.start masked raw now).2 ∧
      (e.start masked raw now).1.templates = (d.start masked raw now).1.templates := by
  constructor
  · simp only [Drain.start, noteShape, h.nextId, h.contains_lineages]
  · simp only [Drain.start, putTemplate, noteShape, insertLineage, h.nextId, h.contains_lineages,
      h.templates]

theorem config_matchMasked (d : Drain) (masked raw : List Text) (now : ℕ) :
    (d.matchMasked masked raw now).1.config = d.config := by
  rcases d.matchMasked_cases masked raw now with ⟨-, heq⟩ | ⟨t, -, -, heq⟩ | ⟨-, -, -, heq⟩ |
    ⟨-, -, -, heq⟩
  · rw [heq]
  · rw [heq]
    exact (d.join_fields t masked raw now).1
  · rw [heq]
  · rw [heq]
    rfl

theorem Alike.matchMasked (h : d.Alike e) (masked raw : List Text) (now : ℕ) :
    (e.matchMasked masked raw now).2 = (d.matchMasked masked raw now).2 ∧
      (e.matchMasked masked raw now).1.templates = (d.matchMasked masked raw now).1.templates := by
  rw [Drain.matchMasked, Drain.matchMasked, h.best, h.config, h.templates]
  split
  · exact ⟨rfl, h.templates⟩
  · split
    · next t _ =>
      obtain ⟨hresult, htemplates⟩ := h.join t masked raw now
      exact ⟨congrArg some hresult, htemplates⟩
    · split
      · exact ⟨rfl, rfl⟩
      · obtain ⟨hresult, htemplates⟩ := h.start masked raw now
        exact ⟨congrArg some hresult, htemplates⟩

/-- A line does the same in both. -/
theorem Alike.addLine (h : d.Alike e) (line : Text) (now : ℕ) :
    (e.addLine line now).2 = (d.addLine line now).2 ∧
      (d.addLine line now).1.Alike (e.addLine line now).1 := by
  have hseen : { d with linesSeen := d.linesSeen + 1 }.Alike
      { e with linesSeen := e.linesSeen + 1 } :=
    ⟨h.left.seen, h.right.seen, h.config, h.templates⟩
  obtain ⟨hresult, htemplates⟩ := hseen.matchMasked (maskLine line).1 (maskLine line).2 now
  refine ⟨hresult, h.left.addLine line now, h.right.addLine line now, ?_, htemplates⟩
  show (Drain.matchMasked _ _ _ now).1.config = (Drain.matchMasked _ _ _ now).1.config
  rw [config_matchMasked, config_matchMasked]
  exact h.config

/-! ## A restart -/

/-- A line and when it is seen. -/
abbrev Line := Text × ℕ

def step (d : Drain) (l : Line) : Drain := (d.addLine l.1 l.2).1

/-- What a catalog keeps: the templates in the order of their ids. -/
def saved (d : Drain) : List Template := Lists.sortByKey Template.id d.templates

theorem Ok.run (config : DrainConfig) (lines : List Line) :
    (Runs.run step (Drain.new config) lines).Ok :=
  Runs.run_invariant (fun _ l h => h.addLine l.1 l.2) (Ok.new config) lines

theorem config_run (config : DrainConfig) (lines : List Line) :
    (Runs.run step (Drain.new config) lines).config = config := by
  have hkeep : ∀ (d : Drain) (l : Line), d.config = config → (d.step l).config = config := by
    intro d l hd
    show (Drain.matchMasked _ _ _ _).1.config = config
    rw [config_matchMasked]
    exact hd
  exact Runs.run_invariant hkeep rfl lines

/-- **A restart does not move template ids.** Whatever lines a miner has seen, one that is
restored from its templates returns the same matches from then on. -/
theorem restore_addLine (config : DrainConfig) (lines more : List Line) (line : Text) (now : ℕ) :
    let d := Runs.run step (Drain.new config) lines
    let restored := Drain.restore config d.saved
    ((Runs.run step restored more).addLine line now).2
      = ((Runs.run step d more).addLine line now).2 := by
  intro d restored
  have hd : d.Ok := Ok.run config lines
  have hsaved : d.saved = d.templates := Lists.sortByKey_eq (List.Perm.refl _) hd.ids
  have halike : d.Alike restored := by
    obtain ⟨hok, htemplates, hconfig⟩ := Ok.restore config hd.ids
    rw [← hsaved] at hok htemplates hconfig
    refine ⟨hd, hok, ?_, ?_⟩
    · rw [hconfig, config_run]
    · rw [htemplates, hsaved]
  have hrun : ∀ (more : List Line) (d e : Drain), d.Alike e →
      (Runs.run step d more).Alike (Runs.run step e more) := by
    intro more
    induction more with
    | nil => exact fun d e h => h
    | cons l more ih => exact fun d e h => ih _ _ (h.addLine l.1 l.2).2
  exact ((hrun more d restored halike).addLine line now).1

end Drain

end LogLess
