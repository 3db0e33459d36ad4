import Mathlib.Data.List.Basic
import Mathlib.Tactic

/-!
# Finite maps as lists of pairs

A map is the list of its entries. `get` finds the entry of a key, `insert` replaces or
adds one, `erase` takes one out. Lookups are rewritten by `get_insert` and `get_erase`.
-/

namespace Assoc

variable {κ ν : Type} [DecidableEq κ]

def get (m : List (κ × ν)) (k : κ) : Option ν := (m.find? fun e => e.1 == k).map Prod.snd

def erase (m : List (κ × ν)) (k : κ) : List (κ × ν) := m.filter fun e => e.1 != k

def insert (m : List (κ × ν)) (k : κ) (v : ν) : List (κ × ν) := erase m k ++ [(k, v)]

@[simp] theorem get_nil (k : κ) : get ([] : List (κ × ν)) k = none := rfl

theorem length_insert_le (m : List (κ × ν)) (k : κ) (v : ν) :
    (insert m k v).length ≤ m.length + 1 := by
  rw [insert, List.length_append]
  exact Nat.add_le_add_right (List.length_filter_le _ m) 1

theorem get_append (m n : List (κ × ν)) (k : κ) : get (m ++ n) k = (get m k).or (get n k) := by
  rw [get, List.find?_append]
  cases h : m.find? fun e => e.1 == k <;> simp [get, h]

theorem get_cons (e : κ × ν) (m : List (κ × ν)) (k : κ) :
    get (e :: m) k = if e.1 = k then some e.2 else get m k := by
  rw [get, List.find?_cons, get]
  by_cases h : e.1 = k
  · simp [h]
  · rw [beq_eq_false_iff_ne.2 h, if_neg h]

/-- A map restricted to some keys. -/
theorem get_filter (f : κ → Bool) (m : List (κ × ν)) (k : κ) :
    get (m.filter fun e => f e.1) k = if f k then get m k else none := by
  rw [get, List.find?_filter]
  split
  · next h =>
    refine congrArg (Option.map Prod.snd) (congrFun (congrArg _ (funext fun e => ?_)) m)
    by_cases he : e.1 = k
    · simp [he, h]
    · simp [he]
  · next h =>
    rw [List.find?_eq_none.mpr]
    · rfl
    · rintro e -
      by_cases he : e.1 = k
      · simp [he, h]
      · simp [he]

theorem get_erase (m : List (κ × ν)) (k k' : κ) :
    get (erase m k) k' = if k' = k then none else get m k' := by
  rw [erase, get_filter fun k' => k' != k]
  by_cases h : k' = k <;> simp [h]

theorem get_insert (m : List (κ × ν)) (k k' : κ) (v : ν) :
    get (insert m k v) k' = if k' = k then some v else get m k' := by
  rw [insert, get_append, get_erase]
  split
  · next h => simp [get, h]
  · next h => simp [get, Ne.symm h]

theorem mem_of_get {m : List (κ × ν)} {k : κ} {v : ν} (h : get m k = some v) : (k, v) ∈ m := by
  obtain ⟨e, he, rfl⟩ := Option.map_eq_some_iff.mp h
  have hk : e.1 = k := by simpa using List.find?_some he
  exact hk ▸ List.mem_of_find?_eq_some he

theorem isSome_get {m : List (κ × ν)} {k : κ} : (get m k).isSome = true ↔ k ∈ m.map Prod.fst := by
  rw [get, Option.isSome_map, List.find?_isSome]
  simp

/-- A new key goes to the end. -/
theorem insert_of_notMem {m : List (κ × ν)} {k : κ} (h : k ∉ m.map Prod.fst) (v : ν) :
    insert m k v = m ++ [(k, v)] := by
  have herase : erase m k = m := by
    rw [erase, List.filter_eq_self]
    intro e he
    rw [bne_iff_ne]
    rintro rfl
    exact h (List.mem_map_of_mem he)
  rw [insert, herase]

/-- With every key once, what is found is what is there. -/
theorem get_eq_some_iff {m : List (κ × ν)} (hn : (m.map Prod.fst).Nodup) {k : κ} {v : ν} :
    get m k = some v ↔ (k, v) ∈ m := by
  refine ⟨mem_of_get, fun hmem => ?_⟩
  induction m with
  | nil => cases hmem
  | cons e m ih =>
    rw [List.map_cons, List.nodup_cons] at hn
    rcases List.mem_cons.mp hmem with rfl | hmem
    · simp [get]
    · have hne : e.1 ≠ k := by
        intro heq
        have hk : k ∈ m.map Prod.fst := List.mem_map_of_mem hmem
        exact hn.1 (heq ▸ hk)
      rw [← ih hn.2 hmem, get, get, List.find?_cons_of_neg (by simpa using hne)]

/-- Looking up all keys gives the entries in the order of the keys. -/
theorem perm_filterMap_get {m : List (κ × ν)} (hn : (m.map Prod.fst).Nodup) {ks : List κ}
    (hks : ks.Nodup) (hmem : ∀ e ∈ m, e.1 ∈ ks) :
    (ks.filterMap fun k => (get m k).map fun v => (k, v)).Perm m := by
  have hfound : ∀ (k k' : κ) (e : κ × ν), e ∈ (get m k).map (fun v => (k, v)) →
      e ∈ (get m k').map (fun v => (k', v)) → k = k' := by
    intro k k' e he he'
    obtain ⟨v, -, rfl⟩ := Option.map_eq_some_iff.mp he
    obtain ⟨v', -, heq⟩ := Option.map_eq_some_iff.mp he'
    exact (Prod.mk.inj heq).1.symm
  rw [List.perm_ext_iff_of_nodup (hks.filterMap hfound) hn.of_map]
  rintro ⟨k, v⟩
  rw [List.mem_filterMap]
  constructor
  · rintro ⟨k', -, he⟩
    obtain ⟨v', hv', heq⟩ := Option.map_eq_some_iff.mp he
    obtain ⟨rfl, rfl⟩ := Prod.mk.inj heq
    exact mem_of_get hv'
  · intro he
    exact ⟨k, hmem _ he, by rw [(get_eq_some_iff hn).mpr he]; rfl⟩

/-! ## Keys -/

theorem keys_erase (m : List (κ × ν)) (k : κ) :
    (erase m k).map Prod.fst = (m.map Prod.fst).filter (fun k' => decide (k' ≠ k)) := by
  rw [erase, List.filter_map]
  refine congrArg _ (List.filter_congr fun e _ => ?_)
  by_cases h : e.1 = k <;> simp [h]

theorem keys_insert (m : List (κ × ν)) (k : κ) (v : ν) :
    (insert m k v).map Prod.fst = (m.map Prod.fst).filter (fun k' => decide (k' ≠ k)) ++ [k] := by
  rw [insert, List.map_append, keys_erase]
  rfl

theorem nodup_keys_insert {m : List (κ × ν)} (h : (m.map Prod.fst).Nodup) (k : κ) (v : ν) :
    ((insert m k v).map Prod.fst).Nodup := by
  rw [keys_insert, List.nodup_append]
  refine ⟨h.filter _, List.nodup_singleton k, ?_⟩
  intro a ha b hb
  have hne := (List.mem_filter.mp ha).2
  rw [List.mem_singleton.mp hb]
  simpa using hne

theorem mem_keys_insert {m : List (κ × ν)} {k k' : κ} {v : ν} :
    k' ∈ (insert m k v).map Prod.fst ↔ k' = k ∨ k' ∈ m.map Prod.fst := by
  rw [keys_insert, List.mem_append, List.mem_filter, List.mem_singleton, decide_eq_true_eq]
  tauto

theorem nodup_keys_erase {m : List (κ × ν)} (h : (m.map Prod.fst).Nodup) (k : κ) :
    ((erase m k).map Prod.fst).Nodup := by
  rw [keys_erase]
  exact h.filter _

/-- A sum over the values, with one of them apart. -/
theorem sum_erase {m : List (κ × ν)} (h : (m.map Prod.fst).Nodup) (f : ν → ℕ) (k : κ) :
    (m.map fun e => f e.2).sum
      = ((erase m k).map fun e => f e.2).sum + ((get m k).map f).getD 0 := by
  induction m with
  | nil => rfl
  | cons e m ih =>
    rw [List.map_cons, List.nodup_cons] at h
    have hrest := ih h.2
    by_cases he : e.1 = k
    · have hnone : get m k = none := by
        rw [← Option.not_isSome_iff_eq_none, isSome_get]
        exact he ▸ h.1
      have herase : erase (e :: m) k = erase m k := by simp [erase, he]
      have hget : get (e :: m) k = some e.2 := by simp [get, he]
      rw [hnone] at hrest
      rw [List.map_cons, List.sum_cons, herase, hget, hrest]
      simp [Nat.add_comm]
    · have herase : erase (e :: m) k = e :: erase m k := by simp [erase, he]
      have hget : get (e :: m) k = get m k := by simp [get, he]
      rw [List.map_cons, List.sum_cons, herase, hget, hrest, List.map_cons, List.sum_cons]
      omega

theorem sum_insert {m : List (κ × ν)} (h : (m.map Prod.fst).Nodup) (f : ν → ℕ) (k : κ) (v : ν) :
    ((insert m k v).map fun e => f e.2).sum + ((get m k).map f).getD 0
      = (m.map fun e => f e.2).sum + f v := by
  rw [insert, List.map_append, List.sum_append, sum_erase h f k]
  simp only [List.map_cons, List.map_nil, List.sum_cons, List.sum_nil]
  omega

/-- Several keys taken out one after another. -/
theorem foldl_erase (m : List (κ × ν)) (ks : List κ) :
    ks.foldl erase m = m.filter fun e => ks.all fun k => decide (e.1 ≠ k) := by
  induction ks generalizing m with
  | nil => simp
  | cons k ks ih =>
    rw [List.foldl_cons, ih, erase, List.filter_filter]
    refine List.filter_congr fun e _ => ?_
    by_cases h : e.1 = k <;> simp [h]

theorem mem_keys_of_get {m : List (κ × ν)} {k : κ} {v : ν} (h : get m k = some v) :
    k ∈ m.map Prod.fst := List.mem_map_of_mem (mem_of_get h)

end Assoc
