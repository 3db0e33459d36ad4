import LogLess.Lib.Assoc

/-!
# Tables with a cap

`track` updates the entry of a key, and makes one for a new key unless the table is full. `trackAll`
does so for a list of keys and collects what the updates say. The table never grows over its cap,
and only the entries of those keys change.
-/

namespace Capped

open Assoc (get)

variable {κ α β φ : Type} [DecidableEq κ] {cap : ℕ} {default : β}

/-- The entry of a key is updated, or begins with `default`. -/
def track (cap : ℕ) (default : β) (update : β → β × List φ) (table : List (κ × β)) (k : κ) :
    List (κ × β) × List φ :=
  match get table k with
  | some b => (Assoc.insert table k (update b).1, (update b).2)
  | none =>
    if cap ≤ table.length then (table, [])
    else (Assoc.insert table k (update default).1, (update default).2)

def trackAll (cap : ℕ) (default : β) (update : κ → α → β → β × List φ) :
    List (κ × β) → List (κ × α) → List (κ × β) × List φ
  | table, [] => (table, [])
  | table, e :: entries =>
    let tracked := track cap default (update e.1 e.2) table e.1
    let rest := trackAll cap default update tracked.1 entries
    (rest.1, tracked.2 ++ rest.2)

section

variable {update : β → β × List φ} {table : List (κ × β)} {k : κ}

/-- Either nothing happens or the entry of the key is updated. -/
theorem track_cases (cap : ℕ) (default : β) (update : β → β × List φ) (table : List (κ × β))
    (k : κ) :
    (get table k = none ∧ cap ≤ table.length ∧ track cap default update table k = (table, [])) ∨
      ∃ b, track cap default update table k = (Assoc.insert table k (update b).1, (update b).2) ∧
        ((get table k).isSome = true ∨ table.length < cap) := by
  rw [track]
  cases h : get table k with
  | some b => exact .inr ⟨b, rfl, .inl rfl⟩
  | none =>
    by_cases hfull : cap ≤ table.length
    · exact .inl ⟨rfl, hfull, if_pos hfull⟩
    · exact .inr ⟨default, if_neg hfull, .inr (Nat.lt_of_not_le hfull)⟩

theorem length_insert_le_of_isSome (h : (get table k).isSome = true) (b : β) :
    (Assoc.insert table k b).length ≤ table.length := by
  obtain ⟨e, he, hk⟩ := List.mem_map.1 (Assoc.isSome_get.1 h)
  have hlt : (Assoc.erase table k).length < table.length := by
    rw [Assoc.erase, List.length_filter_lt_length_iff_exists]
    exact ⟨e, he, by simp [hk]⟩
  rw [Assoc.insert, List.length_append, List.length_singleton]
  omega

theorem length_insert_le_cap (h : table.length ≤ cap)
    (hroom : (get table k).isSome = true ∨ table.length < cap) (b : β) :
    (Assoc.insert table k b).length ≤ cap := by
  rcases hroom with hsome | hlt
  · exact (length_insert_le_of_isSome hsome b).trans h
  · exact (Assoc.length_insert_le table k b).trans hlt

theorem length_track_le (h : table.length ≤ cap) :
    (track cap default update table k).1.length ≤ cap := by
  rcases track_cases cap default update table k with ⟨-, -, heq⟩ | ⟨b, heq, hroom⟩
  · rw [heq]
    exact h
  · rw [heq]
    exact length_insert_le_cap h hroom _

theorem get_track_of_ne {k' : κ} (h : k' ≠ k) :
    get (track cap default update table k).1 k' = get table k' := by
  rcases track_cases cap default update table k with ⟨-, -, heq⟩ | ⟨b, heq, -⟩
  · rw [heq]
  · rw [heq, Assoc.get_insert, if_neg h]

theorem get_track_self {b : β} (h : get (track cap default update table k).1 k = some b) :
    ∃ b', b = (update b').1 := by
  rcases track_cases cap default update table k with ⟨hnone, -, heq⟩ | ⟨b', heq, -⟩
  · rw [heq, hnone] at h
    cases h
  · rw [heq, Assoc.get_insert, if_pos rfl] at h
    exact ⟨b', (Option.some.inj h).symm⟩

theorem nodup_track (h : (table.map Prod.fst).Nodup) :
    ((track cap default update table k).1.map Prod.fst).Nodup := by
  rcases track_cases cap default update table k with ⟨-, -, heq⟩ | ⟨b, heq, -⟩
  · rw [heq]
    exact h
  · rw [heq]
    exact Assoc.nodup_keys_insert h k _

theorem mem_track {f : φ} (h : f ∈ (track cap default update table k).2) :
    ∃ b, f ∈ (update b).2 := by
  rcases track_cases cap default update table k with ⟨-, -, heq⟩ | ⟨b, heq, -⟩
  · rw [heq] at h
    cases h
  · rw [heq] at h
    exact ⟨b, h⟩

end

variable {update : κ → α → β → β × List φ} {table : List (κ × β)} {entries : List (κ × α)}

theorem length_trackAll_le (h : table.length ≤ cap) :
    (trackAll cap default update table entries).1.length ≤ cap := by
  induction entries generalizing table with
  | nil => exact h
  | cons e entries ih => exact ih (length_track_le h)

theorem nodup_trackAll (h : (table.map Prod.fst).Nodup) :
    ((trackAll cap default update table entries).1.map Prod.fst).Nodup := by
  induction entries generalizing table with
  | nil => exact h
  | cons e entries ih => exact ih (nodup_track h)

theorem get_trackAll_of_notMem {k : κ} (h : k ∉ entries.map Prod.fst) :
    get (trackAll cap default update table entries).1 k = get table k := by
  induction entries generalizing table with
  | nil => rfl
  | cons e entries ih =>
    rw [List.map_cons, List.mem_cons, not_or] at h
    exact (ih h.2).trans (get_track_of_ne h.1)

/-- What every update of a key leaves behind holds of its entry, if there is one. -/
theorem trackAll_updated {p : β → Prop} {k : κ} (hp : ∀ a b, p (update k a b).1)
    (h : k ∈ entries.map Prod.fst ∨ ∀ b, get table k = some b → p b) :
    ∀ b, get (trackAll cap default update table entries).1 k = some b → p b := by
  induction entries generalizing table with
  | nil =>
    rcases h with h | h
    · cases h
    · exact h
  | cons e entries ih =>
    refine ih ?_
    by_cases hk : k = e.1
    · right
      intro b hb
      subst hk
      obtain ⟨b', rfl⟩ := get_track_self hb
      exact hp e.2 b'
    · rw [List.map_cons, List.mem_cons] at h
      rcases h with (h | h) | h
      · exact absurd h hk
      · exact .inl h
      · right
        intro b hb
        rw [get_track_of_ne hk] at hb
        exact h b hb

theorem mem_trackAll {f : φ} (h : f ∈ (trackAll cap default update table entries).2) :
    ∃ e ∈ entries, ∃ b, f ∈ (update e.1 e.2 b).2 := by
  induction entries generalizing table with
  | nil => cases h
  | cons e entries ih =>
    rcases List.mem_append.1 h with h | h
    · exact ⟨e, List.mem_cons_self, mem_track h⟩
    · obtain ⟨e', he', hf⟩ := ih h
      exact ⟨e', List.mem_cons_of_mem e he', hf⟩

/-! ## What is in the table -/

/-- Every entry whose key is not to be skipped is updated, and what the updates say is collected in
the order of a visit. -/
def sweep (skip : κ → Bool) (update : κ → β → β × List φ)
    (visit : List (κ × β) → List (κ × β)) (table : List (κ × β)) : List (κ × β) × List φ :=
  (table.map fun e => (e.1, if skip e.1 then e.2 else (update e.1 e.2).1),
    (visit table).flatMap fun e => if skip e.1 then [] else (update e.1 e.2).2)

section

variable {skip : κ → Bool} {update : κ → β → β × List φ} {visit : List (κ × β) → List (κ × β)}
  {table : List (κ × β)}

omit [DecidableEq κ] in
theorem keys_sweep : (sweep skip update visit table).1.map Prod.fst = table.map Prod.fst := by
  rw [sweep, List.map_map]
  rfl

omit [DecidableEq κ] in
theorem length_sweep : (sweep skip update visit table).1.length = table.length := by
  rw [sweep, List.length_map]

theorem get_sweep (k : κ) :
    get (sweep skip update visit table).1 k
      = (get table k).map fun b => if skip k then b else (update k b).1 := by
  induction table with
  | nil => rfl
  | cons e table ih =>
    rw [sweep] at ih ⊢
    rw [List.map_cons, Assoc.get_cons, Assoc.get_cons]
    by_cases h : e.1 = k
    · subst h
      rw [if_pos rfl, if_pos rfl, Option.map_some]
    · rw [if_neg h, if_neg h]
      exact ih

omit [DecidableEq κ] in
theorem mem_sweep {f : φ} (hvisit : ∀ l, (visit l).Perm l)
    (h : f ∈ (sweep skip update visit table).2) :
    ∃ e ∈ table, skip e.1 = false ∧ f ∈ (update e.1 e.2).2 := by
  obtain ⟨e, he, hf⟩ := List.mem_flatMap.1 h
  split at hf
  · cases hf
  · next hskip => exact ⟨e, (hvisit table).mem_iff.1 he, by simpa using hskip, hf⟩

/-- What is said about one key is what the update of its entry says. -/
theorem countP_sweep (hvisit : ∀ l, (visit l).Perm l) (hn : (table.map Prod.fst).Nodup)
    {mark : φ → Bool} {k : κ} (hmark : ∀ k' b, ∀ f ∈ (update k' b).2, mark f = true → k' = k) :
    (sweep skip update visit table).2.countP mark
      = match get table k with
        | none => 0
        | some b => if skip k then 0 else (update k b).2.countP mark := by
  have hperm : (sweep skip update visit table).2.countP mark
      = (table.flatMap fun e => if skip e.1 then [] else (update e.1 e.2).2).countP mark :=
    ((hvisit table).flatMap_right _).countP_eq mark
  rw [hperm]
  clear hperm
  have hother : ∀ e : κ × β, e.1 ≠ k →
      (if skip e.1 then [] else (update e.1 e.2).2).countP mark = 0 := by
    intro e he
    rw [List.countP_eq_zero]
    intro f hf hm
    split at hf
    · cases hf
    · exact he (hmark e.1 e.2 f hf hm)
  induction table with
  | nil => rfl
  | cons e table ih =>
    rw [List.map_cons, List.nodup_cons] at hn
    rw [List.flatMap_cons, List.countP_append, ih hn.2, Assoc.get_cons]
    by_cases h : e.1 = k
    · have hnone : get table k = none := by
        rw [← Option.not_isSome_iff_eq_none, Assoc.isSome_get, ← h]
        exact hn.1
      subst h
      rw [hnone, if_pos rfl, Nat.add_zero]
      cases skip e.1 <;> rfl
    · rw [hother e h, Nat.zero_add, if_neg h]

end

end Capped
