import LogLess.Ring.Capture

/-!
# What the budgets let through

An error that is answered with "rate limited" should find a budget that is spent: that many
windows, in all or of its shape, sent in the minute that ends at its time. A budget is a start
and a count, and it is begun anew when an error comes a minute or more after the start. Times
are those of the records, and the difference is zero when an error comes before the start, so
one record from the future holds a budget until then.
-/

namespace LogLess.Ring

/-! ## The windows of a minute -/

def Capture.isWindow : Capture → Bool
  | .window _ => true
  | .contextSuppressed .. => false

/-- The errors whose windows were sent. -/
def sent (answers : List (LogRecord × Capture)) : List LogRecord :=
  (answers.filter fun a => a.2.isWindow).map Prod.fst

/-- Those observed in the minute that ends at `now`. -/
def inMinute (now : ℕ) (errors : List LogRecord) : List LogRecord :=
  errors.filter fun e => e.observedUnixNano ≤ now ∧ now - e.observedUnixNano < minuteNanos

def ofShape (shape : Text × ℕ) (errors : List LogRecord) : List LogRecord :=
  errors.filter fun e => shapeOf e = shape

/-- An answer that is rate limited comes when a budget of the minute is spent. -/
def BudgetSpent (config : Config) (before : List (LogRecord × Capture))
    (answer : LogRecord × Capture) : Prop :=
  ∀ flow, answer.2 = .contextSuppressed .rateLimited flow →
    config.maxWindowsPerMinute ≤ (inMinute answer.1.observedUnixNano (sent before)).length ∨
    config.windowsPerMinute
      ≤ (inMinute answer.1.observedUnixNano (ofShape (shapeOf answer.1) (sent before))).length

/-! ## Budgets -/

/-- The windows a budget counts are among those sent since its minute began. -/
def Counts (errors : List LogRecord) (budget : ℕ × ℕ) : Prop :=
  budget.2 ≤ (errors.filter fun e => budget.1 ≤ e.observedUnixNano).length

variable {errors : List LogRecord} {budget : ℕ × ℕ} {now : ℕ}

theorem counts_zero (errors : List LogRecord) (now : ℕ) : Counts errors (now, 0) := Nat.zero_le _

theorem Counts.refresh (h : Counts errors budget) (now : ℕ) :
    Counts errors (refresh now budget) := by
  unfold Ring.refresh
  split
  · exact counts_zero errors now
  · exact h

theorem Counts.append (h : Counts errors budget) (more : List LogRecord) :
    Counts (errors ++ more) budget := by
  unfold Counts at h ⊢
  rw [List.filter_append, List.length_append]
  omega

/-- One more window, sent when the minute of the budget has begun. -/
theorem Counts.spend (h : Counts errors budget) {error : LogRecord}
    (hbegun : budget.1 ≤ error.observedUnixNano) :
    Counts (errors ++ [error]) (budget.1, budget.2 + 1) := by
  unfold Counts at h ⊢
  rw [List.filter_append, List.length_append, List.filter_cons_of_pos (by simpa using hbegun)]
  simp only [List.filter_nil, List.length_singleton]
  omega

theorem refresh_begun (h : budget.1 ≤ now) : (refresh now budget).1 ≤ now := by
  unfold refresh
  split
  · exact le_rfl
  · exact h

/-- What a budget counts was sent in the minute that ends now, if nothing was sent later. -/
theorem Counts.inMinute (h : Counts errors budget)
    (hlast : ∀ e ∈ errors, e.observedUnixNano ≤ now) :
    (Ring.refresh now budget).2 ≤ (inMinute now errors).length := by
  unfold Ring.refresh
  split
  · exact Nat.zero_le _
  · next hminute =>
    have hsub : (errors.filter fun e => budget.1 ≤ e.observedUnixNano).length
        ≤ (Ring.inMinute now errors).length := by
      unfold Ring.inMinute
      rw [← List.countP_eq_length_filter, ← List.countP_eq_length_filter]
      refine List.countP_mono_left fun e he hbegun => ?_
      have hle := hlast e he
      rw [decide_eq_true_eq] at hbegun ⊢
      omega
    exact h.trans hsub

/-! ## The limiters -/

/-- A window is let through: both budgets count it. -/
theorem limit_room {r : Ring} {shape : Text × ℕ} (h : r.hasRoom now shape = true) :
    (r.limit now shape).1.globalBudget
        = ((refresh now r.globalBudget).1, (refresh now r.globalBudget).2 + 1) ∧
      (r.limit now shape).1.budgets = Assoc.insert r.budgets shape
        ((refresh now ((Assoc.get r.budgets shape).getD (now, 0))).1,
          (refresh now ((Assoc.get r.budgets shape).getD (now, 0))).2 + 1) := by
  unfold hasRoom at h
  rw [decide_eq_true_eq] at h
  unfold limit
  simp only
  rw [if_neg (by omega), if_neg (by omega)]
  exact ⟨rfl, rfl⟩

/-- None is let through: budgets whose minute is over begin anew. -/
theorem limit_spent {r : Ring} {shape : Text × ℕ} (h : r.hasRoom now shape = false) :
    (r.limit now shape).1.globalBudget = refresh now r.globalBudget ∧
      ((r.limit now shape).1.budgets = r.budgets ∨
        (r.limit now shape).1.budgets = Assoc.insert r.budgets shape
          (refresh now ((Assoc.get r.budgets shape).getD (now, 0)))) ∧
      (r.config.maxWindowsPerMinute ≤ (refresh now r.globalBudget).2 ∨
        r.config.windowsPerMinute
          ≤ (refresh now ((Assoc.get r.budgets shape).getD (now, 0))).2) := by
  unfold hasRoom at h
  rw [decide_eq_false_iff_not] at h
  unfold limit
  simp only
  split
  · next hspent => exact ⟨rfl, .inl rfl, .inl hspent⟩
  · next hroom =>
    rw [if_pos (by omega)]
    exact ⟨rfl, .inr rfl, .inr (by omega)⟩

/-! ## Runs -/

/-- A window is sent when the minutes of its budgets have begun, and a budget is found spent
when nothing was sent later. -/
def History.inOrder (hasher : Hasher) (h : History) : Call → Bool
  | .observe _ => true
  | .capture error =>
    match h.ring.flowOf hasher error with
    | none => true
    | some flow =>
      if h.ring.isDuplicate flow error.observedUnixNano then true
      else if h.ring.hasRoom error.observedUnixNano (shapeOf error) then
        h.ring.globalBudget.1 ≤ error.observedUnixNano ∧
          (Assoc.get h.ring.budgets (shapeOf error)).all fun b => b.1 ≤ error.observedUnixNano
      else (sent h.answers).all fun e => e.observedUnixNano ≤ error.observedUnixNano

/-- Each budget counts windows that were sent since its minute began. -/
structure History.Counted (config : Config) (h : History) : Prop where
  settings : h.ring.config = config
  total : Counts (sent h.answers) h.ring.globalBudget
  shapes : ∀ shape budget, Assoc.get h.ring.budgets shape = some budget →
    Counts (ofShape shape (sent h.answers)) budget

theorem ofShape_append (shape : Text × ℕ) (errors more : List LogRecord) :
    ofShape shape (errors ++ more) = ofShape shape errors ++ ofShape shape more :=
  List.filter_append errors more

theorem sent_append (answers more : List (LogRecord × Capture)) :
    sent (answers ++ more) = sent answers ++ sent more := by
  rw [sent, List.filter_append, List.map_append]
  rfl

theorem sent_withheld {answers : List (LogRecord × Capture)} {error : LogRecord} {answer : Capture}
    (h : answer.isWindow = false) : sent (answers ++ [(error, answer)]) = sent answers := by
  have hone : sent [(error, answer)] = [] := by simp [sent, h]
  rw [sent_append, hone, List.append_nil]

theorem sent_window {answers : List (LogRecord × Capture)} {error : LogRecord} {answer : Capture}
    (h : answer.isWindow = true) : sent (answers ++ [(error, answer)]) = sent answers ++ [error] := by
  have hone : sent [(error, answer)] = [error] := by simp [sent, h]
  rw [sent_append, hone]

variable {hasher : Hasher} {config : Config} {h : History}

/-- The budget of a shape is a new one if there is none yet. -/
theorem History.Counted.shape (hcounted : h.Counted config) (shape : Text × ℕ) (now : ℕ) :
    Counts (ofShape shape (sent h.answers)) ((Assoc.get h.ring.budgets shape).getD (now, 0)) := by
  cases hget : Assoc.get h.ring.budgets shape with
  | none => exact counts_zero _ now
  | some budget => exact hcounted.shapes shape budget hget

/-- An answer that is no window, and leaves the budgets as they are or begins them anew. -/
theorem History.Counted.withheld (hcounted : h.Counted config) {error : LogRecord} {now : ℕ}
    (hwindow : (h.ring.capture hasher error).2.isWindow = false)
    (hconfig : (h.ring.capture hasher error).1.config = h.ring.config)
    (hglobal : (h.ring.capture hasher error).1.globalBudget = h.ring.globalBudget ∨
      (h.ring.capture hasher error).1.globalBudget = refresh now h.ring.globalBudget)
    (hbudgets : (h.ring.capture hasher error).1.budgets = h.ring.budgets ∨
      ∃ shape, (h.ring.capture hasher error).1.budgets = Assoc.insert h.ring.budgets shape
        (refresh now ((Assoc.get h.ring.budgets shape).getD (now, 0)))) :
    (h.step hasher (.capture error)).Counted config := by
  rw [History.step_capture]
  constructor
  · exact hconfig.trans hcounted.settings
  · simp only
    rw [sent_withheld hwindow]
    rcases hglobal with heq | heq
    · rw [heq]
      exact hcounted.total
    · rw [heq]
      exact hcounted.total.refresh now
  · intro shape budget hget
    simp only at hget ⊢
    rw [sent_withheld hwindow]
    rcases hbudgets with heq | ⟨shape', heq⟩
    · rw [heq] at hget
      exact hcounted.shapes shape budget hget
    · rw [heq, Assoc.get_insert] at hget
      split at hget
      · next hshape =>
        cases hget
        subst hshape
        exact (hcounted.shape shape now).refresh now
      · exact hcounted.shapes shape budget hget

theorem History.Counted.step (hcounted : h.Counted config) {c : Call}
    (hok : h.inOrder hasher c = true) : (h.step hasher c).Counted config := by
  cases c with
  | observe record => exact ⟨hcounted.settings, hcounted.total, hcounted.shapes⟩
  | capture error =>
    rcases h.ring.capture_cases hasher error with ⟨-, hcapture⟩ | ⟨context, flow, hflow, hcase⟩
    · refine @History.Counted.withheld hasher config h hcounted error 0 ?_ ?_ ?_ ?_
      all_goals rw [hcapture]
      · rfl
      · exact .inl rfl
      · exact .inl rfl
    simp only [History.inOrder, hflow] at hok
    rcases hcase with ⟨hdup, hcapture⟩ | ⟨hdup, hcapture⟩
    · obtain ⟨last, count, -, -, hopen⟩ := openFlow_duplicate hdup
      rw [hopen] at hcapture
      refine @History.Counted.withheld hasher config h hcounted error 0 ?_ ?_ ?_ ?_
      all_goals rw [hcapture]
      · rfl
      · exact .inl rfl
      · exact .inl rfl
    set now := error.observedUnixNano with hnow
    obtain ⟨-, -, hconfig, -⟩ := (h.ring.opened flow now).limit_spec now (shapeOf error)
    rw [hdup, if_neg Bool.false_ne_true] at hok
    cases hroom : h.ring.hasRoom now (shapeOf error) with
    | false =>
      obtain ⟨hglobal, hbudgets, -⟩ := @limit_spent now (h.ring.opened flow now) (shapeOf error) hroom
      refine @History.Counted.withheld hasher config h hcounted error now ?_ ?_ ?_ ?_
      · rw [hcapture, hroom]
        rfl
      · rw [hcapture]
        exact hconfig
      · rw [hcapture]
        exact .inr hglobal
      · rw [hcapture]
        exact hbudgets.imp id fun heq => ⟨_, heq⟩
    | true =>
      obtain ⟨hglobal, hbudgets⟩ := @limit_room now (h.ring.opened flow now) (shapeOf error) hroom
      rw [hroom, if_pos rfl, decide_eq_true_eq] at hok
      have hwindow : (h.ring.capture hasher error).2.isWindow = true := by
        rw [hcapture, hroom]
        rfl
      rw [History.step_capture]
      constructor
      · simp only
        rw [hcapture]
        exact hconfig.trans hcounted.settings
      · simp only
        rw [sent_window hwindow, hcapture]
        simp only
        rw [hglobal]
        exact (hcounted.total.refresh now).spend (refresh_begun hok.1)
      · intro shape budget hget
        simp only at hget ⊢
        rw [sent_window hwindow, ofShape_append]
        rw [hcapture] at hget
        simp only at hget
        rw [hbudgets, Assoc.get_insert] at hget
        split at hget
        · next hshape =>
          cases hget
          subst hshape
          have hone : ofShape (shapeOf error) [error] = [error] := by
            rw [ofShape, List.filter_cons_of_pos (by simp)]
            rfl
          rw [hone]
          refine ((hcounted.shape (shapeOf error) now).refresh now).spend (refresh_begun ?_)
          have hbegun := hok.2
          cases hold : Assoc.get h.ring.budgets (shapeOf error) with
          | none => exact le_rfl
          | some b =>
            rw [hold, Option.all_some, decide_eq_true_eq] at hbegun
            exact hbegun
        · exact (hcounted.shapes shape budget hget).append _

/-- **An answer is rate limited only when a budget of its minute is spent**, in every run in
which windows are sent when the minutes of their budgets have begun, and no budget is found
spent at a time before that of a window that was sent. -/
theorem limited_when_spent (hasher : Hasher) (config : Config) (calls : List Call)
    (horder : Runs.Meets (History.step hasher) (fun h c => h.inOrder hasher c = true)
      (.start config) calls) :
    Lists.Each (BudgetSpent config)
      (Runs.run (History.step hasher) (.start config) calls).answers := by
  induction calls using List.reverseRecOn with
  | nil => exact Lists.each_nil
  | append_singleton calls c ih =>
    obtain ⟨hmeets, hok⟩ := Runs.meets_concat.mp horder
    have hbefore := ih hmeets
    have hcounted : (Runs.run (History.step hasher) (.start config) calls).Counted config :=
      hmeets.invariant (fun h c hs hok => hs.step hok)
        ⟨rfl, counts_zero _ 0, fun _ _ hget => by cases hget⟩
    rw [Runs.run_concat]
    cases c with
    | observe record => exact hbefore
    | capture error =>
      set h := Runs.run (History.step hasher) (.start config) calls
      rw [History.step_capture]
      simp only
      rw [Lists.each_concat]
      refine ⟨hbefore, ?_⟩
      intro flow hanswer
      simp only at hanswer ⊢
      rcases h.ring.capture_cases hasher error with ⟨-, hcapture⟩ | ⟨context, flow', hflow, hcase⟩
      · rw [hcapture] at hanswer
        cases hanswer
      rcases hcase with ⟨-, hcapture⟩ | ⟨hdup, hcapture⟩
      · rw [hcapture] at hanswer
        cases hanswer
      simp only [History.inOrder, hflow] at hok
      rw [hdup, if_neg Bool.false_ne_true] at hok
      cases hroom : h.ring.hasRoom error.observedUnixNano (shapeOf error) with
      | true =>
        rw [hcapture, hroom] at hanswer
        cases hanswer
      | false =>
        rw [hroom, if_neg Bool.false_ne_true] at hok
        have hlast : ∀ e ∈ sent h.answers, e.observedUnixNano ≤ error.observedUnixNano := by
          intro e he
          simpa using List.all_eq_true.mp hok e he
        rw [← hcounted.settings]
        refine (limit_spent hroom).2.2.imp ?_ ?_
        · intro hspent
          exact hspent.trans (hcounted.total.inMinute hlast)
        · intro hspent
          refine hspent.trans ((hcounted.shape _ _).inMinute ?_)
          exact fun e he => hlast e (List.mem_filter.mp he).1

theorem limited_when_spent_once :
    Lists.Each (BudgetSpent oneWindow)
      (Runs.run (History.step exampleHasher) (.start oneWindow) reopenedWithoutRoom).answers :=
  limited_when_spent exampleHasher oneWindow reopenedWithoutRoom (by decide +kernel)

/-- A window of a record eleven days ahead, and an error of now. -/
def aheadOfTime : List Call :=
  [.observe (exampleLine (10 ^ 15) 1 "line"), .capture (exampleLine (10 ^ 15) 5 "error"),
    .observe (exampleLine 1 1 "line"), .capture (exampleLine 2 6 "other")]

/-- The second error is answered with "rate limited", though no window was sent in its minute. -/
theorem limited_with_nothing_spent :
    ¬ Lists.Each (BudgetSpent oneWindow)
      (Runs.run (History.step exampleHasher) (.start oneWindow) aheadOfTime).answers := by
  set answers := (Runs.run (History.step exampleHasher) (.start oneWindow) aheadOfTime).answers
    with hanswers
  have hlast : answers = answers.take 1 ++
      [(exampleLine 2 6 "other", .contextSuppressed .rateLimited (some 6))] := by
    rw [hanswers]
    decide +kernel
  have hnone : inMinute 2 (sent (answers.take 1)) = [] ∧
      inMinute 2 (ofShape (shapeOf (exampleLine 2 6 "other")) (sent (answers.take 1))) = [] := by
    rw [hanswers]
    decide +kernel
  clear_value answers
  intro heach
  have hspent := heach _ _ [] hlast (some 6) rfl
  simp only [exampleLine, LogRecord.new] at hspent hnone
  rw [hnone.1, hnone.2] at hspent
  exact absurd hspent (by decide)

end LogLess.Ring
