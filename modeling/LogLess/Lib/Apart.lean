import Mathlib.Data.List.Basic
import Mathlib.Tactic

/-!
# Marks with something between them

In a list, some entries are marks and some clear the mark before them. `scan` goes through the list
and remembers whether the last mark was cleared; it fails at a mark that follows another one.
`exists_clear` is what it checks: between two marks something clears the first.
-/

namespace Apart

variable {α : Type} (mark clear : α → Bool)

/-- Whether there is a mark that was not cleared, before and after the list; there is nothing if a
mark follows it. -/
def scan : Bool → List α → Option Bool
  | pending, [] => some pending
  | pending, a :: as =>
    if mark a then if pending then none else scan true as
    else scan (pending && !clear a) as

variable {mark clear}

theorem scan_append (pending : Bool) (as bs : List α) :
    scan mark clear pending (as ++ bs)
      = (scan mark clear pending as).bind fun p => scan mark clear p bs := by
  induction as generalizing pending with
  | nil => rfl
  | cons a as ih =>
    rw [List.cons_append, scan, scan]
    split
    · split
      · rfl
      · exact ih true
    · exact ih _

/-- Entries that are no marks. -/
theorem scan_of_unmarked {as : List α} (h : ∀ a ∈ as, mark a = false) (pending : Bool) :
    scan mark clear pending as = some (pending && as.all fun a => !clear a) := by
  induction as generalizing pending with
  | nil => rw [scan, List.all_nil, Bool.and_true]
  | cons a as ih =>
    rw [scan, if_neg (by rw [h a List.mem_cons_self]; exact Bool.false_ne_true),
      ih (fun x hx => h x (List.mem_cons_of_mem a hx)), List.all_cons, Bool.and_assoc]

/-- One mark at most, and none if there is one already. -/
theorem scan_of_uncleared {as : List α} (hclear : ∀ a ∈ as, clear a = false)
    (hle : as.countP mark ≤ 1) {pending : Bool} (hfree : pending = true → as.countP mark = 0) :
    scan mark clear pending as = some (pending || decide (as.countP mark = 1)) := by
  induction as generalizing pending with
  | nil => rw [scan, List.countP_nil, decide_eq_false Nat.zero_ne_one, Bool.or_false]
  | cons a as ih =>
    have hrest : ∀ x ∈ as, clear x = false := fun x hx => hclear x (List.mem_cons_of_mem a hx)
    rw [scan]
    split
    · next hmark =>
      rw [List.countP_cons_of_pos hmark] at hle hfree ⊢
      have hnone : as.countP mark = 0 := by omega
      have hpending : pending = false := by
        by_contra hne
        have := hfree (by simpa using hne)
        omega
      rw [hpending, if_neg Bool.false_ne_true, ih hrest (by omega) fun _ => hnone, hnone]
      rfl
    · next hmark =>
      rw [List.countP_cons_of_neg hmark] at hle hfree ⊢
      rw [hclear a List.mem_cons_self, Bool.not_false, Bool.and_true]
      exact ih hrest hle hfree

/-- Between two marks, something clears the first. -/
theorem exists_clear {pending last : Bool} {log before between after : List α} {x y : α}
    (hscan : scan mark clear pending log = some last)
    (hlog : log = before ++ x :: between ++ y :: after)
    (hx : mark x = true) (hy : mark y = true) :
    ∃ a ∈ between, clear a = true := by
  rw [hlog, List.append_assoc, scan_append] at hscan
  obtain ⟨p, -, hscan⟩ := Option.bind_eq_some_iff.1 hscan
  rw [List.cons_append, scan, if_pos hx] at hscan
  split at hscan
  · cases hscan
  · by_contra hnone
    have hkeep : ∀ as : List α, (∀ a ∈ as, clear a = false) → ∀ rest,
        scan mark clear true (as ++ rest) ≠ none → scan mark clear true rest ≠ none := by
      intro as has rest hrest
      induction as with
      | nil => exact hrest
      | cons a as ih =>
        rw [List.cons_append, scan] at hrest
        split at hrest
        · exact absurd rfl hrest
        · rw [has a List.mem_cons_self, Bool.not_false, Bool.and_true] at hrest
          exact ih (fun b hb => has b (List.mem_cons_of_mem a hb)) hrest
    have hclear : ∀ a ∈ between, clear a = false := by
      intro a ha
      by_contra hne
      exact hnone ⟨a, ha, by simpa using hne⟩
    have hfail := hkeep between hclear (y :: after) (by rw [hscan]; exact Option.some_ne_none _)
    rw [scan, if_pos hy, if_pos rfl] at hfail
    exact hfail rfl

end Apart
