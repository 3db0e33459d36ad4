import Mathlib.Data.List.Forall2
import Mathlib.Tactic

/-!
# Matching with stars

A pattern is a list of tokens: a star takes any word, every other token one symbol it
accepts. `Matches` says that a word can be split accordingly, and `matcher` decides it by
recursion, with a choice at every star.

A matcher that returns to the last star only is right as well. `Greedy` is what such a
search keeps: the goal is met if the rest of the pattern matches the rest of the word, or
if what follows the last star matches further on. When another star is reached the earlier
one is forgotten: what it could still lead to begins later, and the new star covers that.
-/

namespace Glob

variable {α : Type}

inductive Token (α : Type) where
  | star
  | one (accepts : α → Bool)

def Token.Takes : Token α → List α → Prop
  | .star, _ => True
  | .one accepts, w => ∃ a, w = [a] ∧ accepts a = true

/-- The word can be split into parts that the tokens take. -/
def Matches (ts : List (Token α)) (w : List α) : Prop :=
  ∃ parts : List (List α), parts.flatten = w ∧ List.Forall₂ Token.Takes ts parts

/-- The recursive matcher. -/
def matcher : List (Token α) → List α → Bool
  | [], w => w.isEmpty
  | .star :: ts, [] => matcher ts []
  | .star :: ts, a :: w => matcher ts (a :: w) || matcher (.star :: ts) w
  | .one _ :: _, [] => false
  | .one accepts :: ts, a :: w => accepts a && matcher ts w
termination_by ts w => (ts.length, w.length)

variable {ts : List (Token α)} {w : List α}

@[simp] theorem matches_nil : Matches ([] : List (Token α)) w ↔ w = [] := by
  constructor
  · rintro ⟨parts, rfl, hparts⟩
    obtain rfl := List.forall₂_nil_left_iff.mp hparts
    rfl
  · rintro rfl
    exact ⟨[], rfl, .nil⟩

theorem matches_star : Matches (.star :: ts) w ↔ ∃ k ≤ w.length, Matches ts (w.drop k) := by
  constructor
  · rintro ⟨parts, rfl, hparts⟩
    obtain ⟨part, rest, -, hrest, rfl⟩ := List.forall₂_cons_left_iff.mp hparts
    refine ⟨part.length, by simp, rest, ?_, hrest⟩
    rw [List.flatten_cons, List.drop_left]
  · rintro ⟨k, -, parts, hflat, hparts⟩
    refine ⟨w.take k :: parts, ?_, .cons trivial hparts⟩
    rw [List.flatten_cons, hflat, List.take_append_drop]

theorem matches_one {accepts : α → Bool} : Matches (.one accepts :: ts) w ↔
    ∃ a v, w = a :: v ∧ accepts a = true ∧ Matches ts v := by
  constructor
  · rintro ⟨parts, rfl, hparts⟩
    obtain ⟨part, rest, ⟨a, rfl, ha⟩, hrest, rfl⟩ := List.forall₂_cons_left_iff.mp hparts
    exact ⟨a, rest.flatten, by simp, ha, rest, rfl, hrest⟩
  · rintro ⟨a, v, rfl, ha, parts, rfl, hparts⟩
    exact ⟨[a] :: parts, by simp, .cons ⟨a, rfl, ha⟩ hparts⟩

@[simp] theorem matches_one_cons {accepts : α → Bool} {a : α} :
    Matches (.one accepts :: ts) (a :: w) ↔ accepts a = true ∧ Matches ts w := by
  rw [matches_one]
  constructor
  · rintro ⟨b, v, h, ha, hv⟩
    obtain ⟨rfl, rfl⟩ := List.cons.inj h
    exact ⟨ha, hv⟩
  · rintro ⟨ha, hv⟩
    exact ⟨a, w, rfl, ha, hv⟩

@[simp] theorem not_matches_one_nil {accepts : α → Bool} :
    ¬ Matches (.one accepts :: ts) ([] : List α) := by
  rw [matches_one]
  rintro ⟨a, v, h, -⟩
  cases h

@[simp] theorem matches_star_nil : Matches (.star :: ts) ([] : List α) ↔ Matches ts [] := by
  rw [matches_star]
  simp

theorem matches_star_cons {a : α} :
    Matches (.star :: ts) (a :: w) ↔ Matches ts (a :: w) ∨ Matches (.star :: ts) w := by
  rw [matches_star, matches_star]
  constructor
  · rintro ⟨k, hk, h⟩
    cases k with
    | zero => exact .inl h
    | succ k => exact .inr ⟨k, by simpa using hk, h⟩
  · rintro (h | ⟨k, hk, h⟩)
    · exact ⟨0, by simp, h⟩
    · exact ⟨k + 1, by simpa using hk, h⟩

/-- The recursive matcher decides the language. -/
theorem matcher_iff (ts : List (Token α)) (w : List α) : matcher ts w = true ↔ Matches ts w := by
  fun_induction matcher ts w with
  | case1 w => rw [matches_nil, List.isEmpty_iff]
  | case2 ts ih => rw [ih, matches_star_nil]
  | case3 ts a w ih ih' => rw [Bool.or_eq_true, ih, ih', matches_star_cons]
  | case4 accepts ts => simp
  | case5 accepts ts a w ih => rw [Bool.and_eq_true, ih, matches_one_cons]

/-- Tokens that take a symbol each leave what is behind as many symbols. -/
theorem matches_append_of_ne_star {seg : List (Token α)} (hseg : ∀ t ∈ seg, t ≠ .star)
    (h : Matches (seg ++ ts) w) : seg.length ≤ w.length ∧ Matches ts (w.drop seg.length) := by
  induction seg generalizing w with
  | nil => exact ⟨by simp, h⟩
  | cons t seg ih =>
    cases t with
    | star => exact absurd rfl (hseg _ (by simp))
    | one accepts =>
      obtain ⟨a, v, rfl, -, hv⟩ := matches_one.mp h
      obtain ⟨hle, hmatch⟩ := ih (fun t ht => hseg t (List.mem_cons_of_mem _ ht)) hv
      exact ⟨by simpa using hle, hmatch⟩

/-! ## Returning to the last star -/

/-- What is behind the star matches further on than where the star was met. -/
def Later (s : List (Token α) × List α) : Prop :=
  ∃ k, 0 < k ∧ k ≤ s.2.length ∧ Matches s.1 (s.2.drop k)

/-- A search that has the tokens `ts` and the word `w` left, and what was left at the last
star. -/
structure Greedy (goal : Prop) (ts : List (Token α)) (w : List α)
    (star : Option (List (Token α) × List α)) : Prop where
  goal_iff : goal ↔ Matches ts w ∨ ∃ s ∈ star, Later s
  /-- Since the last star only tokens that take one symbol have been passed. -/
  passed : ∀ s ∈ star, ∃ seg taken, s.1 = seg ++ ts ∧ s.2 = taken ++ w ∧
    taken.length = seg.length ∧ ∀ t ∈ seg, t ≠ .star

namespace Greedy

variable {goal : Prop} {star : Option (List (Token α) × List α)}

theorem start (ts : List (Token α)) (w : List α) : Greedy (Matches ts w) ts w none :=
  ⟨by simp, by simp⟩

/-- A token that takes one symbol takes it. -/
theorem one {accepts : α → Bool} {a : α} (h : Greedy goal (.one accepts :: ts) (a :: w) star)
    (ha : accepts a = true) : Greedy goal ts w star := by
  refine ⟨?_, fun s hs => ?_⟩
  · rw [h.goal_iff, matches_one_cons]
    simp [ha]
  · obtain ⟨seg, taken, hts, hw, hlength, hseg⟩ := h.passed s hs
    refine ⟨seg ++ [.one accepts], taken ++ [a], by simp [hts], by simp [hw], by simp [hlength], ?_⟩
    intro t ht
    rcases List.mem_append.mp ht with ht | ht
    · exact hseg t ht
    · rw [List.mem_singleton.mp ht]
      simp

/-- A star is met: it takes the place of the last one. -/
theorem meet (h : Greedy goal (.star :: ts) w star) : Greedy goal ts w (some (ts, w)) := by
  refine ⟨?_, fun s hs => ?_⟩
  · have hsplit : Matches (.star :: ts) w ↔ Matches ts w ∨ Later (ts, w) := by
      rw [matches_star]
      constructor
      · rintro ⟨k, hk, hm⟩
        rcases Nat.eq_zero_or_pos k with rfl | hpos
        · exact .inl hm
        · exact .inr ⟨k, hpos, hk, hm⟩
      · rintro (hm | ⟨k, -, hk, hm⟩)
        · exact ⟨0, by simp, hm⟩
        · exact ⟨k, hk, hm⟩
    -- what an earlier star could lead to, the new one leads to
    have hold : (∃ s ∈ star, Later s) → Matches (.star :: ts) w := by
      rintro ⟨s, hs, k, hpos, hk, hm⟩
      obtain ⟨seg, taken, hts, hw, hlength, hseg⟩ := h.passed s hs
      rw [hts] at hm
      obtain ⟨hle, hm⟩ := matches_append_of_ne_star hseg hm
      rw [List.drop_drop, hw, List.drop_append, List.drop_eq_nil_of_le (by omega),
        List.nil_append] at hm
      obtain ⟨m, hmle, hm⟩ := matches_star.mp hm
      rw [List.drop_drop] at hm
      rw [hw, List.length_append] at hk
      rw [List.length_drop, hw, List.length_append] at hle
      refine matches_star.mpr ⟨_, ?_, hm⟩
      rw [List.length_drop] at hmle
      omega
    rw [h.goal_iff, or_iff_left_of_imp hold, hsplit]
    simp
  · obtain rfl := Option.some.inj hs
    exact ⟨[], [], rfl, rfl, rfl, by simp⟩

/-- The rest does not match: the last star takes one symbol more. -/
theorem back {s : List (Token α)} {b : α} {v : List α}
    (h : Greedy goal ts w (some (s, b :: v))) (hfail : ¬ Matches ts w) :
    Greedy goal s v (some (s, v)) := by
  refine ⟨?_, fun t ht => ?_⟩
  · rw [h.goal_iff, or_iff_right hfail]
    simp only [Option.mem_def, Option.some.injEq, exists_eq_left']
    constructor
    · rintro ⟨k, hpos, hk, hm⟩
      obtain ⟨k, rfl⟩ := Nat.exists_eq_add_of_lt hpos
      rw [Nat.zero_add] at hk hm
      rcases Nat.eq_zero_or_pos k with rfl | hk'
      · exact .inl hm
      · exact .inr ⟨k, hk', by simpa using hk, hm⟩
    · rintro (hm | ⟨k, hpos, hk, hm⟩)
      · exact ⟨1, by simp, by simp, hm⟩
      · exact ⟨k + 1, by simp, by simpa using hk, hm⟩
  · obtain rfl := Option.some.inj ht
    exact ⟨[], [], rfl, rfl, rfl, by simp⟩

/-- The rest does not match, and there was no star. -/
theorem stuck (h : Greedy goal ts w none) (hfail : ¬ Matches ts w) : ¬ goal := by
  rw [h.goal_iff]
  rintro (hm | ⟨s, hs, -⟩)
  · exact hfail hm
  · cases hs

/-- The word is at its end: a star that took more would leave too little. -/
theorem finish (h : Greedy goal ts [] star) : goal ↔ Matches ts [] := by
  rw [h.goal_iff, or_iff_left_iff_imp]
  rintro ⟨s, hs, k, hpos, hk, hm⟩
  obtain ⟨seg, taken, hts, hw, hlength, hseg⟩ := h.passed s hs
  rw [hts] at hm
  obtain ⟨hle, -⟩ := matches_append_of_ne_star hseg hm
  rw [hw, List.append_nil] at hk hle
  rw [List.length_drop] at hle
  omega

end Greedy

end Glob
