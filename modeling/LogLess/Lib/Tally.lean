import LogLess.Lib.Assoc

/-!
# Tallies

A tally of some times is how many there are, the first and the last. Tallies of two lists are
merged by `add`, so a table of tallies by key can be kept one entry at a time or one table at a
time: `get_record` says what one entry does, `get_foldl_record` what a list of them does, and
`get_foldl_join` what a table added to another does.
-/

namespace Tally

variable {α κ : Type} [DecidableEq κ]

/-- The times of a key. -/
def timesOf (k : κ) (seen : List (κ × α)) : List α := (seen.filter fun e => e.1 = k).map Prod.snd

theorem timesOf_append (k : κ) (seen more : List (κ × α)) :
    timesOf k (seen ++ more) = timesOf k seen ++ timesOf k more := by
  rw [timesOf, List.filter_append, List.map_append, timesOf, timesOf]

theorem timesOf_perm (k : κ) {seen more : List (κ × α)} (h : seen.Perm more) :
    (timesOf k seen).Perm (timesOf k more) := (h.filter _).map _

variable [LinearOrder α]

/-- The tally of two lists together. -/
def add (a b : ℕ × α × α) : ℕ × α × α := (a.1 + b.1, min a.2.1 b.2.1, max a.2.2 b.2.2)

theorem add_assoc (a b c : ℕ × α × α) : add (add a b) c = add a (add b c) := by
  simp only [add, Nat.add_assoc, min_assoc, max_assoc]

theorem add_comm (a b : ℕ × α × α) : add a b = add b a := by
  simp only [add, Nat.add_comm, min_comm, max_comm]

/-- Either tally may be missing. -/
def join (a b : Option (ℕ × α × α)) : Option (ℕ × α × α) := Option.merge add a b

@[simp] theorem join_none_left (a : Option (ℕ × α × α)) : join none a = a :=
  Option.merge_none_left

@[simp] theorem join_none_right (a : Option (ℕ × α × α)) : join a none = a :=
  Option.merge_none_right

theorem join_some (a b : ℕ × α × α) : join (some a) (some b) = some (add a b) := rfl

theorem join_assoc (a b c : Option (ℕ × α × α)) : join (join a b) c = join a (join b c) := by
  cases a with
  | none => rw [join_none_left, join_none_left]
  | some a =>
    cases b with
    | none => rw [join_none_left, join_none_right]
    | some b =>
      cases c with
      | none => rw [join_none_right, join_none_right]
      | some c => rw [join_some, join_some, join_some, join_some, add_assoc]

theorem join_comm (a b : Option (ℕ × α × α)) : join a b = join b a := by
  cases a with
  | none => rw [join_none_left, join_none_right]
  | some a =>
    cases b with
    | none => rw [join_none_left, join_none_right]
    | some b => rw [join_some, join_some, add_comm]

theorem join_eq_none {a b : Option (ℕ × α × α)} : join a b = none ↔ a = none ∧ b = none :=
  Option.merge_eq_none_iff

/-- How many times there are, the first and the last. -/
def ofList : List α → Option (ℕ × α × α)
  | [] => none
  | t :: ts => join (some (1, t, t)) (ofList ts)

theorem ofList_append (ts us : List α) : ofList (ts ++ us) = join (ofList ts) (ofList us) := by
  induction ts with
  | nil => exact (join_none_left _).symm
  | cons t ts ih => rw [List.cons_append, ofList, ih, ofList, join_assoc]

theorem ofList_perm {ts us : List α} (h : ts.Perm us) : ofList ts = ofList us := by
  induction h with
  | nil => rfl
  | cons t _ ih => rw [ofList, ofList, ih]
  | swap t u ts =>
    rw [ofList, ofList, ofList, ofList, ← join_assoc, ← join_assoc,
      join_comm (some (1, u, u)) (some (1, t, t))]
  | trans _ _ ih ih' => exact ih.trans ih'

theorem ofList_eq_none {ts : List α} : ofList ts = none ↔ ts = [] := by
  cases ts with
  | nil => exact iff_of_true rfl rfl
  | cons t ts =>
    rw [ofList, join_eq_none]
    exact iff_of_false (fun h => Option.some_ne_none _ h.1) (List.cons_ne_nil t ts)

/-- A tally is the length, a least and a greatest element of the list. -/
theorem ofList_eq_some {ts : List α} {n : ℕ} {lo hi : α} (h : ofList ts = some (n, lo, hi)) :
    n = ts.length ∧ (lo ∈ ts ∧ ∀ t ∈ ts, lo ≤ t) ∧ hi ∈ ts ∧ ∀ t ∈ ts, t ≤ hi := by
  induction ts generalizing n lo hi with
  | nil => cases h
  | cons t ts ih =>
    rw [ofList] at h
    cases hrest : ofList ts with
    | none =>
      rw [hrest, join_none_right, Option.some.injEq, Prod.mk.injEq, Prod.mk.injEq] at h
      obtain ⟨rfl, rfl, rfl⟩ := h
      rw [ofList_eq_none.mp hrest]
      simp
    | some tally =>
      obtain ⟨m, first, last⟩ := tally
      rw [hrest, join_some, add, Option.some.injEq, Prod.mk.injEq, Prod.mk.injEq] at h
      obtain ⟨rfl, rfl, rfl⟩ := h
      obtain ⟨hlen, ⟨hfirst, hle⟩, hlast, hge⟩ := ih hrest
      refine ⟨by rw [List.length_cons, hlen, Nat.add_comm], ⟨?_, ?_⟩, ?_, ?_⟩
      · rcases min_choice t first with hmin | hmin
        · rw [hmin]
          exact List.mem_cons_self
        · rw [hmin]
          exact List.mem_cons_of_mem t hfirst
      · intro u hu
        rcases List.mem_cons.mp hu with rfl | hu
        · exact min_le_left _ _
        · exact (min_le_right _ _).trans (hle u hu)
      · rcases max_choice t last with hmax | hmax
        · rw [hmax]
          exact List.mem_cons_self
        · rw [hmax]
          exact List.mem_cons_of_mem t hlast
      · intro u hu
        rcases List.mem_cons.mp hu with rfl | hu
        · exact le_max_left _ _
        · exact (hge u hu).trans (le_max_right _ _)

/-- A tally tells whether there are more times. -/
theorem ofList_append_eq_left {ts us : List α} : ofList (ts ++ us) = ofList ts ↔ us = [] := by
  constructor
  · intro h
    cases hts : ofList ts with
    | none =>
      rw [hts, ofList_eq_none, List.append_eq_nil_iff] at h
      exact h.2
    | some tally =>
      obtain ⟨n, lo, hi⟩ := tally
      have hall := (ofList_eq_some (h.trans hts)).1
      have hleft := (ofList_eq_some hts).1
      rw [List.length_append] at hall
      exact List.eq_nil_of_length_eq_zero (by omega)
  · intro h
    rw [h, List.append_nil]

/-! ## Tables -/

/-- A tally added to the entry of its key. -/
def record (table : List (κ × (ℕ × α × α))) (entry : κ × (ℕ × α × α)) :
    List (κ × (ℕ × α × α)) :=
  match Assoc.get table entry.1 with
  | some old => Assoc.insert table entry.1 (add old entry.2)
  | none => Assoc.insert table entry.1 entry.2

variable (table : List (κ × (ℕ × α × α)))

theorem get_record (entry : κ × (ℕ × α × α)) (k : κ) :
    Assoc.get (record table entry) k
      = join (Assoc.get table k) (if entry.1 = k then some entry.2 else none) := by
  unfold record
  by_cases hk : entry.1 = k
  · subst hk
    rw [if_pos rfl]
    cases hget : Assoc.get table entry.1 with
    | none =>
      simp only
      rw [Assoc.get_insert, if_pos rfl, join_none_left]
    | some old =>
      simp only
      rw [Assoc.get_insert, if_pos rfl, join_some]
  · rw [if_neg hk, join_none_right]
    split
    · rw [Assoc.get_insert, if_neg (Ne.symm hk)]
    · rw [Assoc.get_insert, if_neg (Ne.symm hk)]

theorem nodup_record {table : List (κ × (ℕ × α × α))} (h : (table.map Prod.fst).Nodup)
    (entry : κ × (ℕ × α × α)) : ((record table entry).map Prod.fst).Nodup := by
  unfold record
  split <;> exact Assoc.nodup_keys_insert h _ _

theorem nodup_foldl_record {table : List (κ × (ℕ × α × α))} (h : (table.map Prod.fst).Nodup)
    (entries : List (κ × (ℕ × α × α))) : ((entries.foldl record table).map Prod.fst).Nodup := by
  induction entries generalizing table with
  | nil => exact h
  | cons e entries ih => exact ih (nodup_record h e)

/-- Entries recorded one at a time. -/
theorem get_foldl_record (seen : List (κ × α)) (k : κ) :
    Assoc.get ((seen.map fun e => (e.1, (1, e.2, e.2))).foldl record table) k
      = join (Assoc.get table k) (ofList (timesOf k seen)) := by
  induction seen generalizing table with
  | nil => exact (join_none_right _).symm
  | cons e seen ih =>
    rw [List.map_cons, List.foldl_cons, ih, get_record, join_assoc]
    congr 1
    simp only [timesOf]
    by_cases hk : e.1 = k
    · rw [if_pos hk, List.filter_cons_of_pos (by simpa using hk), List.map_cons, ofList]
    · rw [if_neg hk, List.filter_cons_of_neg (by simpa using hk), join_none_left]

/-- A table added to another, entry by entry. -/
theorem get_foldl_join {entries : List (κ × (ℕ × α × α))} (h : (entries.map Prod.fst).Nodup)
    (k : κ) :
    Assoc.get (entries.foldl record table) k
      = join (Assoc.get table k) (Assoc.get entries k) := by
  induction entries generalizing table with
  | nil => exact (join_none_right _).symm
  | cons e entries ih =>
    rw [List.map_cons, List.nodup_cons] at h
    rw [List.foldl_cons, ih (record table e) h.2, get_record, join_assoc]
    congr 1
    by_cases hk : e.1 = k
    · have hnone : Assoc.get entries k = none := by
        rw [← Option.not_isSome_iff_eq_none, Assoc.isSome_get]
        exact hk ▸ h.1
      rw [if_pos hk, hnone, join_none_right]
      simp [Assoc.get, hk]
    · rw [if_neg hk, join_none_left]
      simp [Assoc.get, hk]

end Tally
