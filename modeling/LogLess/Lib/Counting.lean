import LogLess.Lib.Runs

/-!
# Counters that several threads count in

What a thread counts on its way is a log of counters and amounts, and the threads count in any
order. With what is still to be counted, the counters hold what the threads came with
(`Holds`), so they hold all of it when no thread is on its way. A ledger has a counter of requests
and counters of their outcomes: it is balanced then if each thread counts as many of the one as of
the others (`balanced_of_quiet`).
-/

namespace Counting

/-! ## What is counted on the way -/

/-- What a thread counts and what it comes to, which is nothing if it panics. -/
structure Counted (κ α : Type) where
  log : List (κ × ℕ)
  value : Option α

variable {κ α β ρ : Type}

instance : Monad (Counted κ) where
  pure a := ⟨[], some a⟩
  bind x f :=
    match x.value with
    | none => ⟨x.log, none⟩
    | some a => ⟨x.log ++ (f a).log, (f a).value⟩

def count (k : κ) (n : ℕ) : Counted κ Unit := ⟨[(k, n)], some ()⟩

/-- A value that is computed without counting; there is none if it panics. -/
def Counted.ofOption (o : Option α) : Counted κ α := ⟨[], o⟩

theorem pure_eq (a : α) : (pure a : Counted κ α) = ⟨[], some a⟩ := rfl

@[simp] theorem bind_some (log : List (κ × ℕ)) (a : α) (f : α → Counted κ β) :
    (⟨log, some a⟩ : Counted κ α) >>= f = ⟨log ++ (f a).log, (f a).value⟩ := rfl

/-- What does not count can be left out. -/
@[simp] theorem bind_quiet (a : α) (f : α → Counted κ β) :
    (⟨[], some a⟩ : Counted κ α) >>= f = f a := rfl

@[simp] theorem bind_none (log : List (κ × ℕ)) (f : α → Counted κ β) :
    (⟨log, none⟩ : Counted κ α) >>= f = ⟨log, none⟩ := rfl

@[simp] theorem ofOption_some (a : α) :
    (Counted.ofOption (some a) : Counted κ α) = ⟨[], some a⟩ := rfl

@[simp] theorem ofOption_none : (Counted.ofOption none : Counted κ α) = ⟨[], none⟩ := rfl

theorem map_eq (f : α → β) (x : Counted κ α) : f <$> x = ⟨x.log, x.value.map f⟩ := by
  obtain ⟨log, value⟩ := x
  cases value with
  | none => rfl
  | some a =>
    show (⟨log ++ [], some (f a)⟩ : Counted κ β) = _
    rw [List.append_nil, Option.map_some]

@[simp] theorem count_bind (k : κ) (n : ℕ) (f : Unit → Counted κ β) :
    count k n >>= f = ⟨(k, n) :: (f ()).log, (f ()).value⟩ := rfl

variable [DecidableEq κ]

/-- What is added to a counter. -/
def amount (k : κ) (log : List (κ × ℕ)) : ℕ := ((log.filter fun b => b.1 = k).map Prod.snd).sum

@[simp] theorem amount_nil (k : κ) : amount k [] = 0 := rfl

theorem amount_cons (k : κ) (b : κ × ℕ) (log : List (κ × ℕ)) :
    amount k (b :: log) = (if b.1 = k then b.2 else 0) + amount k log := by
  rw [amount, List.filter_cons]
  by_cases h : b.1 = k
  · simp [h, amount]
  · simp [h, amount]

theorem amount_append (k : κ) (log more : List (κ × ℕ)) :
    amount k (log ++ more) = amount k log + amount k more := by
  rw [amount, List.filter_append, List.map_append, List.sum_append, amount, amount]

/-! ## Threads -/

structure World (κ ρ : Type) where
  counters : κ → ℕ
  /-- What each thread has still to count. -/
  threads : List (List (κ × ℕ))
  arrived : List ρ

inductive Event (ρ : Type) where
  | arrive (r : ρ)
  | count (thread : ℕ)

namespace World

def start : World κ ρ := ⟨fun _ => 0, [], []⟩

variable (logOf : ρ → List (κ × ℕ))

def step (w : World κ ρ) : Event ρ → World κ ρ
  | .arrive r => { w with threads := w.threads ++ [logOf r], arrived := w.arrived ++ [r] }
  | .count i =>
    match w.threads[i]? with
    | some (b :: rest) =>
      { w with
        counters := Function.update w.counters b.1 (w.counters b.1 + b.2)
        threads := w.threads.set i rest }
    | _ => w

/-- No thread is on its way. -/
def Quiet (w : World κ ρ) : Prop := ∀ t ∈ w.threads, t = []

/-- Nothing is lost and nothing is counted twice. -/
def Holds (w : World κ ρ) : Prop :=
  ∀ k, w.counters k + (w.threads.map (amount k)).sum
    = (w.arrived.map fun r => amount k (logOf r)).sum

theorem sum_set {ns : List ℕ} {i n m : ℕ} (h : ns[i]? = some (n + m)) :
    (ns.set i m).sum + n = ns.sum := by
  induction ns generalizing i with
  | nil => cases h
  | cons x ns ih =>
    cases i with
    | zero =>
      obtain rfl := Option.some.inj h
      rw [List.set_cons_zero, List.sum_cons, List.sum_cons]
      omega
    | succ i =>
      have hrest := ih (i := i) h
      rw [List.set_cons_succ, List.sum_cons, List.sum_cons]
      omega

theorem holds_step {w : World κ ρ} (h : w.Holds logOf) (e : Event ρ) :
    (w.step logOf e).Holds logOf := by
  intro k
  cases e with
  | arrive r =>
    have hk := h k
    rw [step, List.map_append, List.sum_append, List.map_append, List.sum_append]
    simp only [List.map_cons, List.map_nil, List.sum_singleton]
    omega
  | count i =>
    rw [step]
    split
    · next b rest hthread =>
      have hk := h k
      have hold : (w.threads.map (amount k))[i]?
          = some ((if b.1 = k then b.2 else 0) + amount k rest) := by
        rw [List.getElem?_map, hthread, Option.map_some, amount_cons]
      have hsum := sum_set hold
      rw [← List.map_set] at hsum
      have hcounter : Function.update w.counters b.1 (w.counters b.1 + b.2) k
          = w.counters k + if b.1 = k then b.2 else 0 := by
        by_cases hb : b.1 = k
        · rw [hb, Function.update_self, if_pos rfl]
        · rw [Function.update_of_ne (Ne.symm hb), if_neg hb, Nat.add_zero]
      simp only [hcounter]
      omega
    · exact h k

theorem holds_run (events : List (Event ρ)) :
    (Runs.run (step logOf) (start : World κ ρ) events).Holds logOf := by
  have hstart : (start : World κ ρ).Holds logOf := fun _ => rfl
  have hkeep : ∀ (w : World κ ρ) (e : Event ρ), w.Holds logOf → (w.step logOf e).Holds logOf :=
    fun _ e h => holds_step logOf h e
  exact Runs.run_invariant hkeep hstart events

variable {logOf}

theorem Holds.of_quiet {w : World κ ρ} (h : w.Holds logOf) (hquiet : w.Quiet) (k : κ) :
    w.counters k = (w.arrived.map fun r => amount k (logOf r)).sum := by
  have hnone : (w.threads.map (amount k)).sum = 0 := by
    rw [List.sum_eq_zero_iff]
    intro n hn
    obtain ⟨t, ht, rfl⟩ := List.mem_map.1 hn
    rw [hquiet t ht, amount_nil]
  have hk := h k
  omega

end World

/-! ## Ledgers -/

/-- A counter of requests, and counters of what became of them. -/
structure Ledger (κ : Type) where
  requests : κ
  outcomes : List κ

namespace Ledger

variable (l : Ledger κ)

/-- What is added to the outcomes. -/
def outcome (log : List (κ × ℕ)) : ℕ := (l.outcomes.map fun k => amount k log).sum

/-- One request and one outcome. -/
def Once (log : List (κ × ℕ)) : Prop := amount l.requests log = 1 ∧ l.outcome log = 1

/-- None of them. -/
def Never (log : List (κ × ℕ)) : Prop := amount l.requests log = 0 ∧ l.outcome log = 0

/-- Counted once if it is answered, and not at all if it is not. -/
def Fair (x : Counted κ α) : Prop := if x.value.isSome then l.Once x.log else l.Never x.log

/-- An outcome, the request being counted elsewhere. -/
def Exits (log : List (κ × ℕ)) : Prop := amount l.requests log = 0 ∧ l.outcome log = 1

/-- As many outcomes as requests. -/
def Even (log : List (κ × ℕ)) : Prop := amount l.requests log = l.outcome log

theorem outcome_cons (b : κ × ℕ) (log : List (κ × ℕ)) :
    l.outcome (b :: log) = l.outcome [b] + l.outcome log := by
  have hone : ∀ k, amount k (b :: log) = amount k [b] + amount k log := fun k =>
    amount_append k [b] log
  simp only [outcome, hone, List.sum_map_add]

variable {l}

theorem Exits.once {log : List (κ × ℕ)} (h : l.Exits log) {b : κ × ℕ}
    (hb : amount l.requests [b] = 1 ∧ l.outcome [b] = 0) : l.Once (b :: log) := by
  have hamount := amount_append l.requests [b] log
  have houtcome := l.outcome_cons b log
  refine ⟨?_, ?_⟩
  · rw [← List.singleton_append, hamount, hb.1, h.1]
  · rw [houtcome, hb.2, h.2]

theorem Once.even {log : List (κ × ℕ)} (h : l.Once log) : l.Even log := h.1.trans h.2.symm

theorem Never.even {log : List (κ × ℕ)} (h : l.Never log) : l.Even log := h.1.trans h.2.symm

/-- What is counted beside the ledger. -/
theorem Exits.beside {log : List (κ × ℕ)} (h : l.Exits log) {b : κ × ℕ} (hb : l.Never [b]) :
    l.Exits (b :: log) := by
  have hamount := amount_append l.requests [b] log
  have houtcome := l.outcome_cons b log
  refine ⟨?_, ?_⟩
  · rw [← List.singleton_append, hamount, hb.1, h.1]
  · rw [houtcome, hb.2, h.2]

variable (l)

/-- The check on counters of 64 bits, which wrap. -/
def balanced (counters : κ → ℕ) : Bool :=
  counters l.requests % 2 ^ 64 == (l.outcomes.map fun k => counters k % 2 ^ 64).sum % 2 ^ 64

theorem sum_outcomes (logOf : ρ → List (κ × ℕ)) (rs : List ρ) (ks : List κ) :
    (ks.map fun k => (rs.map fun r => amount k (logOf r)).sum).sum
      = (rs.map fun r => (ks.map fun k => amount k (logOf r)).sum).sum := by
  induction ks with
  | nil => simp
  | cons k ks ih =>
    rw [List.map_cons, List.sum_cons, ih, ← List.sum_map_add]
    simp only [List.map_cons, List.sum_cons]

theorem sum_mod (ns : List ℕ) (m : ℕ) : (ns.map (· % m)).sum % m = ns.sum % m := by
  induction ns with
  | nil => rfl
  | cons n ns ih =>
    rw [List.map_cons, List.sum_cons, List.sum_cons, Nat.add_mod, ih, Nat.mod_mod, ← Nat.add_mod]

theorem sum_of_once (counted : ρ → Bool) {rs : List ρ} {f : ρ → ℕ}
    (h : ∀ r ∈ rs, f r = if counted r then 1 else 0) :
    (rs.map f).sum = (rs.filter counted).length := by
  rw [List.map_congr_left h, ← List.countP_eq_length_filter]
  induction rs with
  | nil => rfl
  | cons r rs ih =>
    rw [List.map_cons, List.sum_cons, ih fun x hx => h x (List.mem_cons_of_mem r hx),
      List.countP_cons, Nat.add_comm]

section

variable {l} {logOf : ρ → List (κ × ℕ)} {w : World κ ρ} (hw : w.Holds logOf) (hquiet : w.Quiet)
include hw hquiet

/-- When no thread is on its way, the requests are those that are counted once. -/
theorem requests_of_quiet {counted : ρ → Bool}
    (hexact : ∀ r ∈ w.arrived, if counted r then l.Once (logOf r) else l.Never (logOf r)) :
    w.counters l.requests = (w.arrived.filter counted).length := by
  rw [hw.of_quiet hquiet]
  refine sum_of_once counted fun r hr => ?_
  have h := hexact r hr
  split at h
  · next hcounted => rw [if_pos hcounted, h.1]
  · next hcounted => rw [if_neg hcounted, h.1]

/-- And the ledger is balanced if every log is. -/
theorem balanced_of_quiet (heven : ∀ r ∈ w.arrived, l.Even (logOf r)) :
    l.balanced w.counters = true := by
  have hrequests : w.counters l.requests = (w.arrived.map fun r => l.outcome (logOf r)).sum := by
    rw [hw.of_quiet hquiet, List.map_congr_left heven]
  have houtcomes : (l.outcomes.map w.counters).sum
      = (w.arrived.map fun r => l.outcome (logOf r)).sum := by
    have hall : l.outcomes.map w.counters
        = l.outcomes.map fun k => (w.arrived.map fun r => amount k (logOf r)).sum :=
      List.map_congr_left fun k _ => hw.of_quiet hquiet k
    rw [hall, sum_outcomes]
    rfl
  have hmod := sum_mod (l.outcomes.map w.counters) (2 ^ 64)
  rw [List.map_map, houtcomes] at hmod
  rw [balanced, beq_iff_eq, hrequests]
  exact hmod.symm

end

/-- Each request is in the ledger once or not at all; and when no thread is on its way, it has as
many requests as there were and is balanced. -/
structure Accounts (l : Ledger κ) (logOf : ρ → List (κ × ℕ)) (counted : ρ → Bool)
    (w : World κ ρ) : Prop where
  each : ∀ r ∈ w.arrived, if counted r then l.Once (logOf r) else l.Never (logOf r)
  total : w.Quiet → w.counters l.requests = (w.arrived.filter counted).length
  balanced : w.Quiet → l.balanced w.counters = true

/-- It is enough to look at the requests one by one. -/
theorem accounts_iff {l : Ledger κ} {logOf : ρ → List (κ × ℕ)} {w : World κ ρ}
    (hw : w.Holds logOf) (counted : ρ → Bool) :
    l.Accounts logOf counted w ↔
      ∀ r ∈ w.arrived, if counted r then l.Once (logOf r) else l.Never (logOf r) := by
  refine ⟨fun h => h.each, fun h => ⟨h, fun hquiet => requests_of_quiet hw hquiet h,
    fun hquiet => balanced_of_quiet hw hquiet fun r hr => ?_⟩⟩
  have hexact := h r hr
  split at hexact
  · exact hexact.even
  · exact hexact.even

end Ledger

end Counting
