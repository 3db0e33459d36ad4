import Mathlib.Data.List.Basic
import Mathlib.Tactic

/-!
# Runs of a step function

A system is a state type `σ`, a type `ε` of events and a total step function
`σ → ε → σ`; an event that is not enabled leaves the state as it is. A run is the
fold of the step function over a list of events, and `Meets` says that every step
of a run satisfies a condition on the state it starts from.

The rules below are the ones every invariant proof of a system uses: `run_invariant`
for a property all steps keep, `Meets.invariant` for one that only the steps meeting a
condition keep, and `meets_iff_counter` for a counter of the steps that do not meet it.
-/

namespace Runs

variable {σ ε : Type*} (step : σ → ε → σ)

/-- The state a list of events leads to. -/
def run (s : σ) (es : List ε) : σ := es.foldl step s

@[simp] theorem run_nil (s : σ) : run step s [] = s := rfl

@[simp] theorem run_cons (s : σ) (e : ε) (es : List ε) :
    run step s (e :: es) = run step (step s e) es := rfl

theorem run_append (s : σ) (es fs : List ε) :
    run step s (es ++ fs) = run step (run step s es) fs := List.foldl_append

theorem run_concat (s : σ) (es : List ε) (e : ε) :
    run step s (es ++ [e]) = step (run step s es) e := by
  rw [run_append, run_cons, run_nil]

/-- Every step of the run from `s` along `es` satisfies `ok` where it starts. -/
def Meets (ok : σ → ε → Prop) : σ → List ε → Prop
  | _, [] => True
  | s, e :: es => ok s e ∧ Meets ok (step s e) es

/-- A condition that can be checked at each step can be checked along a run. -/
def decidableMeets (ok : σ → ε → Prop) [∀ s e, Decidable (ok s e)] :
    (s : σ) → (es : List ε) → Decidable (Meets step ok s es)
  | _, [] => isTrue trivial
  | s, e :: es => @instDecidableAnd _ _ _ (decidableMeets ok (step s e) es)

instance (ok : σ → ε → Prop) [∀ s e, Decidable (ok s e)] (s : σ) (es : List ε) :
    Decidable (Meets step ok s es) := decidableMeets step ok s es

variable {step}

theorem Meets.nil {ok : σ → ε → Prop} (s : σ) : Meets step ok s [] := trivial

theorem Meets.append_left {ok : σ → ε → Prop} {s : σ} {es fs : List ε}
    (h : Meets step ok s (es ++ fs)) : Meets step ok s es := by
  induction es generalizing s with
  | nil => exact Meets.nil s
  | cons e es ih => exact ⟨h.1, ih h.2⟩

theorem Meets.append_right {ok : σ → ε → Prop} {s : σ} {es fs : List ε}
    (h : Meets step ok s (es ++ fs)) : Meets step ok (run step s es) fs := by
  induction es generalizing s with
  | nil => exact h
  | cons e es ih => exact ih h.2

theorem Meets.append {ok : σ → ε → Prop} {s : σ} {es fs : List ε} (h : Meets step ok s es)
    (h' : Meets step ok (run step s es) fs) : Meets step ok s (es ++ fs) := by
  induction es generalizing s with
  | nil => exact h'
  | cons _ es ih => exact ⟨h.1, ih h.2 h'⟩

theorem Meets.concat {ok : σ → ε → Prop} {s : σ} {es : List ε} (h : Meets step ok s es) {e : ε}
    (he : ok (run step s es) e) : Meets step ok s (es ++ [e]) := h.append ⟨he, trivial⟩

theorem meets_concat {ok : σ → ε → Prop} {s : σ} {es : List ε} {e : ε} :
    Meets step ok s (es ++ [e]) ↔ Meets step ok s es ∧ ok (run step s es) e := by
  constructor
  · intro h
    exact ⟨h.append_left, h.append_right.1⟩
  · intro h
    exact h.1.concat h.2

/-- A property the steps meeting `ok` keep holds at the end of every run that meets `ok`. -/
theorem Meets.invariant {ok : σ → ε → Prop} {inv : σ → Prop}
    (keep : ∀ s e, inv s → ok s e → inv (step s e)) {s : σ} {es : List ε}
    (h : Meets step ok s es) (hs : inv s) : inv (run step s es) := by
  induction es generalizing s with
  | nil => exact hs
  | cons e es ih => exact ih h.2 (keep s e hs h.1)

/-- A property every step keeps holds at the end of every run. -/
theorem run_invariant {inv : σ → Prop} (keep : ∀ s e, inv s → inv (step s e))
    {s : σ} (hs : inv s) (es : List ε) : inv (run step s es) := by
  induction es generalizing s with
  | nil => exact hs
  | cons e es ih => exact ih (keep s e hs)

/-- A counter that moves exactly at the steps that do not meet `ok` stands still over a
run exactly if every step of it meets `ok`. -/
theorem meets_iff_counter {ok : σ → ε → Prop} {f : σ → ℕ}
    (hok : ∀ s e, ok s e → f (step s e) = f s) (hbad : ∀ s e, ¬ ok s e → f s < f (step s e))
    (s : σ) (es : List ε) : Meets step ok s es ↔ f (run step s es) = f s := by
  have hmono : ∀ (s : σ) (es : List ε), f s ≤ f (run step s es) := by
    intro s es
    induction es generalizing s with
    | nil => exact le_rfl
    | cons e es ih =>
      have hstep : f s ≤ f (step s e) := by
        by_cases h : ok s e
        · exact (hok s e h).ge
        · exact (hbad s e h).le
      exact hstep.trans (ih (step s e))
  induction es generalizing s with
  | nil => exact ⟨fun _ => rfl, fun _ => trivial⟩
  | cons e es ih =>
    constructor
    · rintro ⟨h, hrest⟩
      rw [run_cons, (ih (step s e)).mp hrest, hok s e h]
    · intro heq
      rw [run_cons] at heq
      have hle := hmono (step s e) es
      by_cases h : ok s e
      · exact ⟨h, (ih (step s e)).mpr (by rw [heq, hok s e h])⟩
      · have := hbad s e h
        omega

end Runs
