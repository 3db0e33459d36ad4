import Mathlib.Data.List.Sort
import Mathlib.Data.Rat.Defs
import Mathlib.Tactic

/-!
# Sorting and choosing by a key

`sortByKey key` is the stable sort of `sort_by_key`. A list whose keys are strictly
increasing is what every rearrangement of it sorts to, which is why a directory can be
listed in any order; two such lists with the same members are one list. A stable sort
commutes with a filter.

`lastMax` is `max_by`, which returns the last of several greatest elements;
`lastMax_eq_some_iff` says which one that is. `chunks` cuts a list into pieces of one length.
`Each` is a relation between every entry of a log and those before it.
-/

namespace Lists

variable {α : Type} (key : α → ℕ)

/-- The stable sort by a numeric key. -/
def sortByKey (l : List α) : List α := l.insertionSort fun a b => key a ≤ key b

theorem perm_sortByKey (l : List α) : (sortByKey key l).Perm l := List.perm_insertionSort _ l

theorem pairwise_sortByKey (l : List α) :
    (sortByKey key l).Pairwise fun a b => key a ≤ key b := by
  have htotal : Std.Total fun a b : α => key a ≤ key b := ⟨fun a b => Nat.le_total _ _⟩
  have htrans : IsTrans α fun a b : α => key a ≤ key b := ⟨fun _ _ _ h h' => h.trans h'⟩
  exact List.pairwise_insertionSort _ l

variable {key}

/-- Every rearrangement of a list with strictly increasing keys sorts to that list. -/
theorem sortByKey_eq {l l' : List α} (hp : l'.Perm l) (hl : (l.map key).Pairwise (· < ·)) :
    sortByKey key l' = l := by
  have hlt : l.Pairwise fun a b => key a < key b := List.pairwise_map.mp hl
  have hperm : (sortByKey key l').Perm l := (perm_sortByKey key l').trans hp
  refine hperm.eq_of_pairwise ?_ (pairwise_sortByKey key l') (hlt.imp fun h => le_of_lt h)
  -- two members of `l` with one key are one member
  intro a b ha hb hab hba
  have hinj : Set.InjOn key { x | x ∈ l } := by
    have hnodup : (l.map key).Nodup := hl.imp fun h => ne_of_lt h
    intro x hx y hy hxy
    exact List.inj_on_of_nodup_map hnodup hx hy hxy
  exact hinj (hperm.mem_iff.mp ha) hb (le_antisymm hab hba)

/-- Two lists with strictly increasing keys and the same members are the same. -/
theorem eq_of_pairwise_lt {κ : Type} [LinearOrder κ] {key : α → κ} {l l' : List α}
    (hl : l.Pairwise fun a b => key a < key b) (hl' : l'.Pairwise fun a b => key a < key b)
    (hmem : ∀ x, x ∈ l ↔ x ∈ l') : l = l' := by
  have hnodup : ∀ {m : List α}, (m.Pairwise fun a b => key a < key b) → m.Nodup := by
    intro m hm
    exact hm.imp fun h heq => absurd (heq ▸ h) (lt_irrefl _)
  have hperm : l.Perm l' := (List.perm_ext_iff_of_nodup (hnodup hl) (hnodup hl')).mpr hmem
  refine hperm.eq_of_pairwise ?_ hl hl'
  exact fun a b _ _ hab hba => absurd (hab.trans hba) (lt_irrefl _)

theorem filter_orderedInsert {r : α → α → Prop} [DecidableRel r] [IsTrans α r] (keep : α → Bool)
    (a : α) {l : List α} (h : l.Pairwise r) :
    (l.orderedInsert r a).filter keep
      = if keep a then (l.filter keep).orderedInsert r a else l.filter keep := by
  induction l with
  | nil => cases hk : keep a <;> simp [hk]
  | cons b l ih =>
    obtain ⟨hb, hl⟩ := List.pairwise_cons.mp h
    by_cases hab : r a b
    · rw [List.orderedInsert_cons_of_le r l hab, List.filter_cons]
      split
      · -- what is kept is at least `b`, so `a` goes in front of it
        have hfront : ∀ c ∈ (b :: l).filter keep, r a c := by
          intro c hc
          rcases List.mem_cons.mp (List.mem_filter.mp hc).1 with rfl | hc
          · exact hab
          · exact IsTrans.trans _ _ _ hab (hb c hc)
        cases hkept : (b :: l).filter keep with
        | nil => rfl
        | cons c m => rw [List.orderedInsert_cons_of_le r m (hfront c (by simp [hkept]))]
      · rfl
    · rw [List.orderedInsert_of_not_le r l hab, List.filter_cons, ih hl, List.filter_cons]
      cases hkb : keep b with
      | false => rfl
      | true =>
        cases hka : keep a with
        | false => rfl
        | true =>
          simp only [if_true]
          rw [List.orderedInsert_of_not_le r _ hab]

/-- A stable sort leaves what a filter keeps in the order it would have alone. -/
theorem filter_insertionSort {r : α → α → Prop} [DecidableRel r] [Std.Total r] [IsTrans α r]
    (keep : α → Bool) (l : List α) :
    (l.insertionSort r).filter keep = (l.filter keep).insertionSort r := by
  induction l with
  | nil => rfl
  | cons a l ih =>
    rw [List.insertionSort_cons, filter_orderedInsert keep a (List.pairwise_insertionSort r l), ih,
      List.filter_cons]
    split <;> rfl

/-- Two lists with the same members, as often, are sorted alike. -/
theorem insertionSort_eq_of_perm {cmp : α → α → Ordering} [Std.TransCmp cmp]
    [Std.LawfulEqCmp cmp] {l l' : List α} (h : l.Perm l') :
    (l.insertionSort fun a b => (cmp a b).isLE = true)
      = l'.insertionSort fun a b => (cmp a b).isLE = true := by
  have htotal : Std.Total fun a b => (cmp a b).isLE = true := by
    refine ⟨fun a b => ?_⟩
    rw [@Std.OrientedCmp.eq_swap _ cmp _ b a]
    cases cmp a b <;> simp
  have htrans : IsTrans α fun a b => (cmp a b).isLE = true := ⟨fun _ _ _ => Std.TransCmp.isLE_trans⟩
  have hperm := (List.perm_insertionSort (fun a b => (cmp a b).isLE = true) l).trans
    (h.trans (List.perm_insertionSort (fun a b => (cmp a b).isLE = true) l').symm)
  refine hperm.eq_of_pairwise ?_ (List.pairwise_insertionSort _ l)
    (List.pairwise_insertionSort _ l')
  intro a b _ _ hab hba
  exact Std.LawfulEqCmp.eq_of_compare (Std.OrientedCmp.isLE_antisymm hab hba)

/-! ## The last of the greatest -/

/-- The better of two candidates, the second one in a tie. -/
def better (best : Option (α × ℚ)) (x : α × ℚ) : Option (α × ℚ) :=
  match best with
  | none => some x
  | some b => if x.2 < b.2 then some b else some x

/-- `Iterator::max_by`. -/
def lastMax (l : List (α × ℚ)) : Option (α × ℚ) := l.foldl better none

theorem lastMax_concat (l : List (α × ℚ)) (x : α × ℚ) :
    lastMax (l ++ [x]) = better (lastMax l) x := List.foldl_concat ..

theorem lastMax_eq_none_iff {l : List (α × ℚ)} : lastMax l = none ↔ l = [] := by
  induction l using List.reverseRecOn with
  | nil => simp [lastMax]
  | append_singleton l y _ =>
    rw [lastMax_concat]
    cases lastMax l with
    | none => simp [better]
    | some b =>
      simp only [better]
      split <;> simp

/-- It is at least what comes before it and greater than what comes after it. -/
theorem lastMax_eq_some {l : List (α × ℚ)} {x : α × ℚ} (h : lastMax l = some x) :
    ∃ before after, l = before ++ x :: after ∧ (∀ y ∈ before, y.2 ≤ x.2) ∧
      ∀ y ∈ after, y.2 < x.2 := by
  induction l using List.reverseRecOn generalizing x with
  | nil => cases h
  | append_singleton l y ih =>
    rw [lastMax_concat] at h
    cases hl : lastMax l with
    | none =>
      rw [hl, better, Option.some.injEq] at h
      rw [lastMax_eq_none_iff.mp hl]
      exact ⟨[], [], by simp [h], by simp, by simp⟩
    | some b =>
      obtain ⟨before, after, rfl, hbefore, hafter⟩ := ih hl
      simp only [hl, better] at h
      split at h
      · next hlt =>
        obtain rfl := Option.some.inj h
        refine ⟨before, after ++ [y], by simp, hbefore, ?_⟩
        intro z hz
        rcases List.mem_append.mp hz with hz | hz
        · exact hafter z hz
        · rw [List.mem_singleton.mp hz]
          exact hlt
      · next hge =>
        obtain rfl := Option.some.inj h
        have hby : b.2 ≤ y.2 := not_lt.mp hge
        refine ⟨before ++ b :: after, [], rfl, ?_, by simp⟩
        intro z hz
        rcases List.mem_append.mp hz with hz | hz
        · exact (hbefore z hz).trans hby
        · rcases List.mem_cons.mp hz with rfl | hz
          · exact hby
          · exact (hafter z hz).le.trans hby

theorem lastMax_of_split {before after : List (α × ℚ)} {x : α × ℚ}
    (hbefore : ∀ y ∈ before, y.2 ≤ x.2) (hafter : ∀ y ∈ after, y.2 < x.2) :
    lastMax (before ++ x :: after) = some x := by
  induction after using List.reverseRecOn with
  | nil =>
    rw [lastMax_concat]
    cases hl : lastMax before with
    | none => rfl
    | some b =>
      obtain ⟨_, _, rfl, -, -⟩ := lastMax_eq_some hl
      have hle := hbefore b (by simp)
      simp [better, not_lt.mpr hle]
  | append_singleton after y ih =>
    rw [← List.cons_append, ← List.append_assoc, lastMax_concat,
      ih fun z hz => hafter z (List.mem_append_left _ hz)]
    simp [better, hafter y (by simp)]

/-- In a sorted list without equal neighbours there are no equal keys. -/
theorem nodup_of_isChain_ne {β : Type} {f : α → β} {r : β → β → Prop}
    (hanti : ∀ a b, r a b → r b a → a = b) {l : List α} (hsorted : l.Pairwise fun a b => r (f a) (f b))
    (hne : l.IsChain fun a b => f a ≠ f b) : (l.map f).Nodup := by
  induction l with
  | nil => simp
  | cons a l ih =>
    obtain ⟨hle, hsorted⟩ := List.pairwise_cons.mp hsorted
    rw [List.map_cons, List.nodup_cons]
    refine ⟨fun hmem => ?_, ih hsorted hne.tail⟩
    obtain ⟨b, hb, hab⟩ := List.mem_map.mp hmem
    cases l with
    | nil => cases hb
    | cons c l =>
      -- the next element lies between two equal ones
      have hac : f a ≠ f c := (List.isChain_cons_cons.mp hne).1
      rcases List.mem_cons.mp hb with rfl | hb
      · exact hac hab.symm
      · have hcb := (List.pairwise_cons.mp hsorted).1 b hb
        rw [hab] at hcb
        exact hac (hanti _ _ (hle c List.mem_cons_self) hcb)

/-! ## Fallible maps -/

theorem mapM_eq_some_iff {β : Type} {f : α → Option β} {l : List α} {out : List β} :
    l.mapM f = some out ↔ List.Forall₂ (fun a b => f a = some b) l out := by
  induction l generalizing out with
  | nil => simp [eq_comm]
  | cons a l ih =>
    rw [List.mapM_cons, List.forall₂_cons_left_iff]
    constructor
    · intro h
      obtain ⟨b, hb, h⟩ := Option.bind_eq_some_iff.mp h
      obtain ⟨bs, hbs, h⟩ := Option.bind_eq_some_iff.mp h
      exact ⟨b, bs, hb, ih.mp hbs, (Option.some.inj h).symm⟩
    · rintro ⟨b, bs, hb, hbs, rfl⟩
      simp [hb, ih.mpr hbs]

theorem exists_of_mem_mapM {β : Type} {g : α → Option β} {l : List α} {out : List β}
    (h : l.mapM g = some out) {b : β} (hb : b ∈ out) : ∃ a ∈ l, g a = some b := by
  induction l generalizing out with
  | nil =>
    cases h
    cases hb
  | cons a l ih =>
    rw [List.mapM_cons] at h
    obtain ⟨c, hc, h⟩ := Option.bind_eq_some_iff.mp h
    obtain ⟨cs, hcs, h⟩ := Option.bind_eq_some_iff.mp h
    cases h
    rcases List.mem_cons.mp hb with rfl | hb
    · exact ⟨a, List.mem_cons_self, hc⟩
    · obtain ⟨x, hx, hgx⟩ := ih hcs hb
      exact ⟨x, List.mem_cons_of_mem a hx, hgx⟩

theorem exists_mapM_eq_some {β : Type} {g : α → Option β} {l : List α} {out : List β}
    (h : l.mapM g = some out) {a : α} (ha : a ∈ l) : ∃ b ∈ out, g a = some b := by
  have h := mapM_eq_some_iff.mp h
  induction h with
  | nil => cases ha
  | @cons c d l out hd _ ih =>
    rcases List.mem_cons.mp ha with rfl | ha
    · exact ⟨d, List.mem_cons_self, hd⟩
    · obtain ⟨b, hb, hab⟩ := ih (mapM_eq_some_iff.mpr (by assumption)) ha
      exact ⟨b, List.mem_cons_of_mem _ hb, hab⟩

theorem mapM_map_of_mem {β : Type} {f : α → β} {g : β → Option α} {l : List α}
    (h : ∀ a ∈ l, g (f a) = some a) : (l.map f).mapM g = some l := by
  induction l with
  | nil => rfl
  | cons a l ih =>
    have hrest := ih fun b hb => h b (List.mem_cons_of_mem a hb)
    rw [List.map_cons, List.mapM_cons, h a List.mem_cons_self, hrest]
    rfl

/-- What a partial map keeps, seen through a function it respects. -/
theorem sublist_filterMap {β γ : Type} {f : α → Option β} {g : α → γ} {h : β → γ}
    (hf : ∀ a b, f a = some b → h b = g a) (l : List α) :
    ((l.filterMap f).map h).Sublist (l.map g) := by
  induction l with
  | nil => exact List.nil_sublist _
  | cons a l ih =>
    cases ha : f a with
    | none =>
      rw [List.filterMap_cons_none ha, List.map_cons]
      exact ih.cons _
    | some b =>
      rw [List.filterMap_cons_some ha, List.map_cons, List.map_cons, hf a b ha]
      exact ih.cons_cons _

theorem zip_map_range {β : Type} (g : ℕ → β) (l : List α) :
    l.zip ((List.range l.length).map g) = l.zipIdx.map fun (a, i) => (a, g i) := by
  rw [List.zipIdx_eq_zip_range', ← List.range_eq_range', List.zip_map_right]
  rfl

/-! ## Cutting into chunks -/

/-- The list in pieces of `n`, as far as the fuel goes. -/
def chunks (n : ℕ) : ℕ → List α → List (List α)
  | 0, _ => []
  | fuel + 1, l => if l.isEmpty then [] else l.take n :: chunks n fuel (l.drop n)

theorem flatten_chunks {n fuel : ℕ} (hn : 0 < n) {l : List α} (h : l.length ≤ fuel) :
    (chunks n fuel l).flatten = l := by
  induction fuel generalizing l with
  | zero => rw [List.length_eq_zero_iff.mp (Nat.le_zero.mp h)]; rfl
  | succ fuel ih =>
    unfold chunks
    split
    · next hl => rw [List.isEmpty_iff.mp hl]; rfl
    · have hdrop : (l.drop n).length ≤ fuel := by
        rw [List.length_drop]
        omega
      rw [List.flatten_cons, ih hdrop, List.take_append_drop]

/-! ## Every entry of a log -/

/-- Every entry of a log stands in a relation to those before it. -/
def Each {α : Type} (p : List α → α → Prop) (log : List α) : Prop :=
  ∀ before entry after, log = before ++ entry :: after → p before entry

theorem each_nil {α : Type} {p : List α → α → Prop} : Each p [] := by
  intro before entry after heq
  cases before <;> cases heq

theorem each_concat {α : Type} {p : List α → α → Prop} {log : List α} {a : α} :
    Each p (log ++ [a]) ↔ Each p log ∧ p log a := by
  constructor
  · intro h
    refine ⟨?_, h log a [] rfl⟩
    intro before entry after heq
    exact h before entry (after ++ [a]) (by rw [heq, List.append_assoc, List.cons_append])
  · intro h before entry after heq
    rcases List.eq_nil_or_concat after with rfl | ⟨after, last, rfl⟩
    · obtain ⟨rfl, hlast⟩ := List.append_inj' heq rfl
      rw [List.cons.injEq] at hlast
      exact hlast.1 ▸ h.2
    · have hcut : log ++ [a] = (before ++ entry :: after) ++ [last] := by
        rw [heq, List.append_assoc, List.cons_append, List.concat_eq_append]
      exact h.1 before entry after (List.append_inj' hcut rfl).1

end Lists
