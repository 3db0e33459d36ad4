import Mathlib.Data.List.Basic
import Mathlib.Tactic

/-!
# Elements in any order

Elements have keys. Two lists are `Rearranged` for some keys if they have the same elements of each
of them, in the same order; how elements of different keys stand to each other, and what else is in
the lists, is left open. What is gathered from two such lists is the same, if what elements of
different keys do to it commutes and elements of other keys do nothing.
-/

namespace Traces

variable {α κ σ : Type} [DecidableEq κ] {key : α → κ}

def ofKey (key : α → κ) (k : κ) (l : List α) : List α := l.filter fun a => key a = k

/-- The same elements of each key in `keys`, in their order. -/
def Rearranged (key : α → κ) (keys : List κ) (l l' : List α) : Prop :=
  ∀ k ∈ keys, ofKey key k l = ofKey key k l'

theorem ofKey_cons_self (a : α) (l : List α) :
    ofKey key (key a) (a :: l) = a :: ofKey key (key a) l := by
  simp only [ofKey, List.filter_cons, decide_true, if_true]

theorem ofKey_cons_of_ne {k : κ} {a : α} (h : key a ≠ k) (l : List α) :
    ofKey key k (a :: l) = ofKey key k l := by
  simp only [ofKey, List.filter_cons, decide_eq_true_eq, if_neg h]

theorem ofKey_append (k : κ) (l l' : List α) :
    ofKey key k (l ++ l') = ofKey key k l ++ ofKey key k l' := List.filter_append _ _

variable {keys : List κ} {l l' : List α}

theorem Rearranged.symm (h : Rearranged key keys l l') : Rearranged key keys l' l :=
  fun k hk => (h k hk).symm

/-- Elements of the keys are in both lists. -/
theorem Rearranged.mem (h : Rearranged key keys l l') {a : α} (ha : a ∈ l) (hkey : key a ∈ keys) :
    a ∈ l' := by
  have hmem : a ∈ ofKey key (key a) l := List.mem_filter.mpr ⟨ha, decide_eq_true rfl⟩
  rw [h _ hkey] at hmem
  exact (List.mem_filter.mp hmem).1

section

variable {act : σ → α → σ}
  (hcomm : ∀ s a b, key a ≠ key b → act (act s a) b = act (act s b) a)
  (hskip : ∀ s a, key a ∉ keys → act s a = s)

include hskip in
theorem foldl_others {l : List α} (h : ∀ k ∈ keys, ofKey key k l = []) (s : σ) :
    l.foldl act s = s := by
  induction l with
  | nil => rfl
  | cons a l ih =>
    have hkey : key a ∉ keys := by
      intro hkey
      have hnil := h _ hkey
      rw [ofKey_cons_self] at hnil
      exact List.cons_ne_nil _ _ hnil
    rw [List.foldl_cons, hskip s a hkey]
    refine ih fun k hk => ?_
    rw [← h k hk, ofKey_cons_of_ne]
    rintro rfl
    exact hkey hk

include hcomm in
/-- An element moves to the front of elements of other keys. -/
theorem foldl_front {a : α} {l : List α} (h : ofKey key (key a) l = []) (s : σ) :
    act (l.foldl act s) a = l.foldl act (act s a) := by
  induction l generalizing s with
  | nil => rfl
  | cons b l ih =>
    have hne : key b ≠ key a := by
      intro hkey
      rw [← hkey, ofKey_cons_self] at h
      exact List.cons_ne_nil _ _ h
    rw [ofKey_cons_of_ne hne] at h
    rw [List.foldl_cons, List.foldl_cons, ih h, hcomm s b a hne]

include hcomm hskip in
theorem foldl_rearranged {l l' : List α} (h : Rearranged key keys l l') (s : σ) :
    l.foldl act s = l'.foldl act s := by
  induction l generalizing l' s with
  | nil => exact (foldl_others hskip (fun k hk => (h k hk).symm) s).symm
  | cons a l ih =>
    by_cases hkey : key a ∈ keys
    · have hfirst := h _ hkey
      rw [ofKey_cons_self] at hfirst
      obtain ⟨front, rest, rfl, hfront, -, hrest⟩ := List.filter_eq_cons_iff.mp hfirst.symm
      have hnone : ofKey key (key a) front = [] := List.filter_eq_nil_iff.mpr hfront
      have hother : Rearranged key keys l (front ++ rest) := by
        intro k hk
        by_cases hne : key a = k
        · rw [← hne, ofKey_append, hnone]
          exact hrest.symm
        · have hk' := h k hk
          rw [ofKey_cons_of_ne hne, ofKey_append, ofKey_cons_of_ne hne] at hk'
          rw [hk', ofKey_append]
      rw [List.foldl_cons, ih hother, List.foldl_append, List.foldl_append, List.foldl_cons,
        foldl_front hcomm hnone]
    · rw [List.foldl_cons, hskip s a hkey]
      refine ih (fun k hk => ?_) s
      rw [← h k hk, ofKey_cons_of_ne]
      rintro rfl
      exact hkey hk

end

end Traces
