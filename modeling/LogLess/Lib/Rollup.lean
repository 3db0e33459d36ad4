import Mathlib.Data.List.Lex
import Mathlib.Tactic

/-!
# Keys in order, and what they roll up to

Sequences are compared lexicographically. What lies between two sequences that start with `p`
starts with `p` too, and what starts with `p` lies on one side of everything that does not.

`cut p d k` is the key `k` up to the end of the first `d` that follows `p`, if there is one.
Rolling keys up keeps their order: of two keys in order the first rolls up to less than the
second, unless both are cut to the same (`roll_lt_or_eq`).
-/

namespace Rollup

variable {α : Type} [LinearOrder α]

/-! ## Order and beginnings -/

theorem le_of_isPrefix {p k : List α} (h : p <+: k) : p ≤ k := by
  obtain ⟨t, rfl⟩ := h
  induction p with
  | nil =>
    cases t with
    | nil => exact le_rfl
    | cons c t => exact le_of_lt (List.nil_lt_cons c t)
  | cons c p ih =>
    rcases ih.lt_or_eq with hlt | heq
    · exact le_of_lt (List.cons_lt_cons_iff.mpr (.inr ⟨rfl, hlt⟩))
    · rw [List.cons_append, ← heq]

/-- What starts with `p` is below everything above `p` that does not. -/
theorem lt_of_lt_of_not_isPrefix {p k m : List α} (hk : p <+: k) (hlt : p < m) (hm : ¬ p <+: m) :
    k < m := by
  obtain ⟨t, rfl⟩ := hk
  induction p generalizing m with
  | nil => exact absurd (List.nil_prefix) hm
  | cons c p ih =>
    cases m with
    | nil => exact absurd hlt (List.not_lt_nil _)
    | cons b m =>
      rw [List.cons_append, List.cons_lt_cons_iff]
      rcases List.cons_lt_cons_iff.mp hlt with hcb | ⟨rfl, hpm⟩
      · exact .inl hcb
      · refine .inr ⟨rfl, ih hpm fun hpre => hm ?_⟩
        exact (List.prefix_cons_inj c).mpr hpre

/-- What lies between `p` and something that starts with `p` starts with `p`. -/
theorem isPrefix_of_le_of_le {p k q : List α} (hq : p <+: q) (hpk : p ≤ k) (hkq : k ≤ q) :
    p <+: k := by
  by_contra hne
  have hlt : p < k := lt_of_le_of_ne hpk fun heq => hne (heq ▸ List.prefix_refl p)
  exact absurd (lt_of_lt_of_not_isPrefix hq hlt hne) (not_lt.mpr hkq)

/-! ## The first occurrence -/

/-- `str::find`: where the pattern occurs first. -/
def find (d : List α) : List α → Option ℕ
  | [] => if d = [] then some 0 else none
  | c :: t => if d <+: c :: t then some 0 else (find d t).map (· + 1)

theorem find_of_isPrefix {d t : List α} (h : d <+: t) : find d t = some 0 := by
  cases t with
  | nil => rw [find, if_pos (List.prefix_nil.mp h)]
  | cons c t => rw [find, if_pos h]

theorem length_le_of_find {d t : List α} {i : ℕ} (h : find d t = some i) :
    i + d.length ≤ t.length := by
  induction t generalizing i with
  | nil =>
    rw [find] at h
    split at h
    · next hd =>
      obtain rfl := Option.some.inj h
      simp [hd]
    · cases h
  | cons c t ih =>
    rw [find] at h
    split at h
    · next hd =>
      obtain rfl := Option.some.inj h
      simpa using hd.length_le
    · obtain ⟨j, hj, rfl⟩ := Option.map_eq_some_iff.mp h
      have := ih hj
      rw [List.length_cons]
      omega

/-- What is found in a text is found there in every text that starts with it. -/
theorem find_append {d t : List α} {i : ℕ} (h : find d t = some i) (u : List α) :
    find d (t ++ u) = some i := by
  induction t generalizing i with
  | nil =>
    rw [find] at h
    split at h
    · next hd =>
      obtain rfl := Option.some.inj h
      exact find_of_isPrefix (hd ▸ List.nil_prefix)
    · cases h
  | cons c t ih =>
    rw [find] at h
    split at h
    · next hd =>
      obtain rfl := Option.some.inj h
      exact find_of_isPrefix (hd.trans (List.prefix_append _ _))
    · next hd =>
      obtain ⟨j, hj, rfl⟩ := Option.map_eq_some_iff.mp h
      have hlen := length_le_of_find hj
      have hd' : ¬ d <+: c :: (t ++ u) := by
        intro hpre
        apply hd
        exact List.prefix_of_prefix_length_le hpre (List.prefix_append (c :: t) u)
          (by rw [List.length_cons]; omega)
      rw [List.cons_append, find, if_neg hd', ih hj]
      rfl

/-- Nothing beyond the end of the first occurrence matters. -/
theorem find_take {d t : List α} {i : ℕ} (h : find d t = some i) :
    find d (t.take (i + d.length)) = some i := by
  induction t generalizing i with
  | nil => simpa using h
  | cons c t ih =>
    rw [find] at h
    split at h
    · next hd =>
      obtain rfl := Option.some.inj h
      refine find_of_isPrefix ?_
      rw [Nat.zero_add, List.prefix_take_iff]
      exact ⟨hd, le_rfl⟩
    · next hd =>
      obtain ⟨j, hj, rfl⟩ := Option.map_eq_some_iff.mp h
      rw [show j + 1 + d.length = j + d.length + 1 by omega, List.take_succ_cons, find, if_neg, ih hj]
      · rfl
      · intro hpre
        refine hd (hpre.trans ?_)
        exact (List.prefix_cons_inj c).mpr (List.take_prefix _ _)

/-! ## Rolling up -/

/-- The key up to the end of the first `d` after `p`. -/
def cut (p d k : List α) : Option (List α) :=
  (find d (k.drop p.length)).map fun i => k.take (p.length + i + d.length)

def roll (p d k : List α) : List α := (cut p d k).getD k

variable {p d k k' c : List α}

theorem isPrefix_of_cut (h : cut p d k = some c) : c <+: k := by
  obtain ⟨i, -, rfl⟩ := Option.map_eq_some_iff.mp h
  exact List.take_prefix _ _

theorem roll_isPrefix (p d k : List α) : roll p d k <+: k := by
  unfold roll
  cases h : cut p d k with
  | none => exact List.prefix_refl k
  | some c => exact isPrefix_of_cut h

/-- A longer key is cut at the same place. -/
theorem cut_of_isPrefix (hp : p <+: k) (hk : k <+: k') (h : cut p d k = some c) :
    cut p d k' = some c := by
  obtain ⟨i, hi, rfl⟩ := Option.map_eq_some_iff.mp h
  obtain ⟨t, rfl⟩ := hk
  have hlen := length_le_of_find hi
  have hplen := hp.length_le
  rw [List.length_drop] at hlen
  rw [cut, List.drop_append_of_le_length hplen, find_append hi, Option.map_some,
    List.take_append_of_le_length (by omega)]

theorem cut_cut (hp : p <+: k) (h : cut p d k = some c) : p <+: c ∧ cut p d c = some c := by
  obtain ⟨i, hi, rfl⟩ := Option.map_eq_some_iff.mp h
  have hlen := length_le_of_find hi
  rw [List.length_drop] at hlen
  constructor
  · rw [List.prefix_take_iff]
    exact ⟨hp, by omega⟩
  · have hdrop : (k.take (p.length + i + d.length)).drop p.length
        = (k.drop p.length).take (i + d.length) := by
      rw [List.drop_take]
      congr 1
      omega
    rw [cut, hdrop, find_take hi, Option.map_some, List.take_take, min_self]

/-- Every key that starts with the cut is cut there. -/
theorem cut_of_cut_isPrefix (hp : p <+: k) (h : cut p d k = some c) (hk : c <+: k') :
    cut p d k' = some c := by
  obtain ⟨hpc, hcc⟩ := cut_cut hp h
  exact cut_of_isPrefix hpc hk hcc

theorem roll_lt_or_eq (hp' : p <+: k') (hlt : k < k') :
    roll p d k < roll p d k' ∨ ∃ c, cut p d k = some c ∧ cut p d k' = some c := by
  cases h' : cut p d k' with
  | none =>
    left
    rw [show roll p d k' = k' by rw [roll, h']; rfl]
    exact lt_of_le_of_lt (le_of_isPrefix (roll_isPrefix p d k)) hlt
  | some c' =>
    have hroll' : roll p d k' = c' := by rw [roll, h']; rfl
    rw [hroll']
    by_cases hpre : c' <+: k
    · exact .inr ⟨c', cut_of_cut_isPrefix hp' h' hpre, rfl⟩
    · left
      -- otherwise the first key lies between the cut and the second key
      have hkc : k < c' := by
        by_contra hle
        exact hpre (isPrefix_of_le_of_le (isPrefix_of_cut h') (not_lt.mp hle) (le_of_lt hlt))
      exact lt_of_le_of_lt (le_of_isPrefix (roll_isPrefix p d k)) hkc

end Rollup
