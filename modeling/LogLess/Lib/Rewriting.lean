import LogLess.Lib.Assoc
import LogLess.Lib.Runs

/-!
# Rewriting a map entry by entry

Each entry of a map is to become some entries: `place k v` says which. What the whole map is to
become is its `Goal`. A rewriting puts the new entries one at a time and drops an old one when
all of its new ones are there, so it can stop anywhere and be begun again: a sound change leaves
the goal as it is (`goal_run`), and a map whose entries are all final is what its goal says
(`perm_of_final`).
-/

namespace Rewriting

variable {κ ν : Type} [DecidableEq κ] (place : κ → ν → List (κ × ν))

inductive Change (κ ν : Type) where
  | put (k : κ) (v : ν)
  | drop (k : κ)

def apply (m : List (κ × ν)) : Change κ ν → List (κ × ν)
  | .put k v => Assoc.insert m k v
  | .drop k => Assoc.erase m k

/-- An entry of what a map is to become. -/
def Goal (m : List (κ × ν)) (e : κ × ν) : Prop := ∃ k v, Assoc.get m k = some v ∧ e ∈ place k v

/-- The new entries of all old ones have different keys. -/
def Apart (m : List (κ × ν)) : Prop := ((m.flatMap fun e => place e.1 e.2).map Prod.fst).Nodup

/-- The goal has one value for each key. -/
def Single (m : List (κ × ν)) : Prop :=
  ∀ k v v', Goal place m (k, v) → Goal place m (k, v') → v = v'

/-- An entry that is its own new one. -/
def Final (e : κ × ν) : Prop := place e.1 e.2 = [e]

/-- A key whose entries keep it. -/
def Stays (k : κ) : Prop := ∀ v, ∀ e ∈ place k v, e.1 = k

/-- A new entry is put, or an old one dropped after its new ones. -/
def Sound (m : List (κ × ν)) : Change κ ν → Prop
  | .put k v => Goal place m (k, v) ∧ Final place (k, v) ∧ Stays place k
  | .drop k => ∀ v, Assoc.get m k = some v → ∀ e ∈ place k v,
      e.1 ≠ k ∧ Final place e ∧ Assoc.get m e.1 = some e.2

variable {place} {m : List (κ × ν)}

theorem Single.congr {m' : List (κ × ν)} (h : Single place m)
    (hgoal : ∀ e, Goal place m' e ↔ Goal place m e) : Single place m' := by
  intro k v v' hv hv'
  exact h k v v' ((hgoal _).mp hv) ((hgoal _).mp hv')

theorem goal_iff_mem (hn : (m.map Prod.fst).Nodup) {e : κ × ν} :
    Goal place m e ↔ e ∈ m.flatMap fun e => place e.1 e.2 := by
  rw [List.mem_flatMap]
  constructor
  · intro h
    obtain ⟨k, v, hget, he⟩ := h
    exact ⟨(k, v), Assoc.mem_of_get hget, he⟩
  · intro h
    obtain ⟨⟨k, v⟩, hmem, he⟩ := h
    exact ⟨k, v, (Assoc.get_eq_some_iff hn).mpr hmem, he⟩

theorem Apart.single (hn : (m.map Prod.fst).Nodup) (h : Apart place m) : Single place m := by
  intro k v v' hv hv'
  rw [goal_iff_mem hn, ← Assoc.get_eq_some_iff h] at hv hv'
  exact Option.some.inj (hv.symm.trans hv')

/-! ## Changes -/

theorem goal_put (hsingle : Single place m) {k : κ} {v : ν} (h : Sound place m (.put k v))
    (e : κ × ν) : Goal place (Assoc.insert m k v) e ↔ Goal place m e := by
  obtain ⟨hgoal, hfinal, hstays⟩ := h
  constructor
  · rintro ⟨k', v', hget, he⟩
    rw [Assoc.get_insert] at hget
    by_cases hk : k' = k
    · rw [if_pos hk, Option.some.injEq] at hget
      rw [hk, ← hget, show place k v = [(k, v)] from hfinal, List.mem_singleton] at he
      exact he ▸ hgoal
    · rw [if_neg hk] at hget
      exact ⟨k', v', hget, he⟩
  · rintro ⟨k', v', hget, he⟩
    by_cases hk : k' = k
    · -- the entry that is overwritten has one new entry, and that is the one put
      subst hk
      have hkey : e.1 = k' := hstays v' e he
      have hval : e.2 = v := hsingle k' e.2 v ⟨k', v', hget, hkey ▸ he⟩ hgoal
      refine ⟨k', v, by rw [Assoc.get_insert, if_pos rfl], ?_⟩
      rw [show place k' v = [(k', v)] from hfinal, ← hkey, ← hval]
      exact List.mem_singleton.mpr rfl
    · exact ⟨k', v', by rw [Assoc.get_insert, if_neg hk, hget], he⟩

theorem goal_drop {k : κ} (h : Sound place m (.drop k)) (e : κ × ν) :
    Goal place (Assoc.erase m k) e ↔ Goal place m e := by
  constructor
  · rintro ⟨k', v', hget, he⟩
    rw [Assoc.get_erase] at hget
    by_cases hk : k' = k
    · rw [if_pos hk] at hget
      cases hget
    · rw [if_neg hk] at hget
      exact ⟨k', v', hget, he⟩
  · rintro ⟨k', v', hget, he⟩
    by_cases hk : k' = k
    · subst hk
      obtain ⟨hne, hfinal, hthere⟩ := h v' hget e he
      refine ⟨e.1, e.2, by rw [Assoc.get_erase, if_neg hne, hthere], ?_⟩
      rw [show place e.1 e.2 = [e] from hfinal]
      exact List.mem_singleton.mpr rfl
    · exact ⟨k', v', by rw [Assoc.get_erase, if_neg hk, hget], he⟩

theorem goal_apply (hsingle : Single place m) {c : Change κ ν} (h : Sound place m c) (e : κ × ν) :
    Goal place (apply m c) e ↔ Goal place m e := by
  cases c with
  | put k v => exact goal_put hsingle h e
  | drop k => exact goal_drop h e

/-- **Sound changes leave the goal as it is**, wherever they stop. -/
theorem goal_run (hsingle : Single place m) {cs : List (Change κ ν)}
    (h : Runs.Meets apply (Sound place) m cs) (e : κ × ν) :
    Goal place (Runs.run apply m cs) e ↔ Goal place m e := by
  induction cs generalizing m with
  | nil => exact Iff.rfl
  | cons c cs ih =>
    have hone : ∀ e, Goal place (apply m c) e ↔ Goal place m e := goal_apply hsingle h.1
    rw [Runs.run_cons, ih (hsingle.congr hone) h.2, hone]

theorem nodup_run (hn : (m.map Prod.fst).Nodup) (cs : List (Change κ ν)) :
    ((Runs.run apply m cs).map Prod.fst).Nodup := by
  induction cs generalizing m with
  | nil => exact hn
  | cons c cs ih =>
    refine ih ?_
    cases c with
    | put k v => exact Assoc.nodup_keys_insert hn k v
    | drop k => exact Assoc.nodup_keys_erase hn k

/-- A map of final entries is its goal. -/
theorem perm_of_final {m₀ : List (κ × ν)} (hn₀ : (m₀.map Prod.fst).Nodup)
    (hapart : Apart place m₀) (hn : (m.map Prod.fst).Nodup)
    (hgoal : ∀ e, Goal place m e ↔ Goal place m₀ e) (hfinal : ∀ e ∈ m, Final place e) :
    m.Perm (m₀.flatMap fun e => place e.1 e.2) := by
  rw [List.perm_ext_iff_of_nodup hn.of_map hapart.of_map]
  intro e
  rw [← goal_iff_mem hn₀, ← hgoal, goal_iff_mem hn, List.mem_flatMap]
  constructor
  · intro he
    refine ⟨e, he, ?_⟩
    rw [show place e.1 e.2 = [e] from hfinal e he]
    exact List.mem_singleton.mpr rfl
  · intro h
    obtain ⟨e', he', he⟩ := h
    rw [show place e'.1 e'.2 = [e'] from hfinal e' he', List.mem_singleton] at he
    exact he ▸ he'

/-! ## One entry moved -/

/-- What moves an entry: its new ones are put, and it is dropped. -/
def move (place : κ → ν → List (κ × ν)) (k : κ) (v : ν) : List (Change κ ν) :=
  (place k v).map (fun e => .put e.1 e.2) ++ [.drop k]

theorem get_run_puts (m : List (κ × ν)) {es : List (κ × ν)} {q : κ} (hq : q ∉ es.map Prod.fst) :
    Assoc.get (Runs.run apply m (es.map fun e => .put e.1 e.2)) q = Assoc.get m q := by
  induction es generalizing m with
  | nil => rfl
  | cons e es ih =>
    rw [List.map_cons, List.mem_cons, not_or] at hq
    rw [List.map_cons, Runs.run_cons, ih _ hq.2]
    exact (Assoc.get_insert m e.1 q e.2).trans (if_neg hq.1)

/-- A list of entries with one value for each key is there after it is put. -/
theorem get_run_puts_of_mem {es : List (κ × ν)} {e : κ × ν}
    (hone : ∀ e' ∈ es, e'.1 = e.1 → e'.2 = e.2)
    (h : Assoc.get m e.1 = some e.2 ∨ e ∈ es) :
    Assoc.get (Runs.run apply m (es.map fun e => .put e.1 e.2)) e.1 = some e.2 := by
  induction es generalizing m with
  | nil => exact h.resolve_right List.not_mem_nil
  | cons e' es ih =>
    rw [List.map_cons, Runs.run_cons]
    refine ih (fun e'' he'' => hone e'' (List.mem_cons_of_mem e' he'')) ?_
    rw [List.mem_cons] at h
    by_cases hk : e.1 = e'.1
    · left
      refine (Assoc.get_insert m e'.1 e.1 e'.2).trans ?_
      rw [if_pos hk, hone e' List.mem_cons_self hk.symm]
    · rcases h with h | rfl | h
      · exact .inl ((Assoc.get_insert m e'.1 e.1 e'.2).trans ((if_neg hk).trans h))
      · exact absurd rfl hk
      · exact .inr h

theorem meets_puts {k : κ} {v : ν} (hget : Assoc.get m k = some v) {es : List (κ × ν)}
    (hes : ∀ e ∈ es, e ∈ place k v ∧ e.1 ≠ k ∧ Final place e ∧ Stays place e.1) :
    Runs.Meets apply (Sound place) m (es.map fun e => .put e.1 e.2) := by
  induction es generalizing m with
  | nil => exact .nil m
  | cons e es ih =>
    obtain ⟨hmem, hne, hfinal, hstays⟩ := hes e List.mem_cons_self
    refine ⟨⟨⟨k, v, hget, hmem⟩, hfinal, hstays⟩, ih ?_ fun e' he' =>
      hes e' (List.mem_cons_of_mem e he')⟩
    exact (Assoc.get_insert m e.1 k e.2).trans ((if_neg hne.symm).trans hget)

/-- An entry can be moved to other keys. -/
theorem meets_move (hsingle : Single place m) {k : κ} {v : ν} (hget : Assoc.get m k = some v)
    (h : ∀ e ∈ place k v, e.1 ≠ k ∧ Final place e ∧ Stays place e.1) :
    Runs.Meets apply (Sound place) m (move place k v) := by
  refine (meets_puts hget fun e he => ⟨he, h e he⟩).append ⟨?_, trivial⟩
  have hk : k ∉ (place k v).map Prod.fst := by
    intro hmem
    obtain ⟨e, he, hkey⟩ := List.mem_map.mp hmem
    exact (h e he).1 hkey
  intro v' hget' e he
  rw [get_run_puts m hk, hget, Option.some.injEq] at hget'
  subst hget'
  refine ⟨(h e he).1, (h e he).2.1, get_run_puts_of_mem (fun e' he' hkey => ?_) (.inr he)⟩
  exact hsingle e.1 e'.2 e.2 ⟨k, v, hget, hkey ▸ he'⟩ ⟨k, v, hget, he⟩

theorem get_run_move (m : List (κ × ν)) {k q : κ} {v : ν} (hq : q ∉ (place k v).map Prod.fst) :
    Assoc.get (Runs.run apply m (move place k v)) q = if q = k then none else Assoc.get m q := by
  rw [move, Runs.run_concat]
  refine (Assoc.get_erase _ k q).trans ?_
  rw [get_run_puts m hq]

end Rewriting
