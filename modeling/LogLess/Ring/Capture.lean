import LogLess.Lib.Lists
import LogLess.Ring.Memory

/-!
# What a ring answered

A history is a ring and the answers it gave, in order. An answer that a flow is a duplicate
is to point at a window that was sent, and what was collapsed into a window is to be told with
the next one of its flow. Both rest on the table of flows, which is written before the budgets
are looked at: a flow that is opened when there is no room in them is entered as if its window
had been sent, and the count it held is gone.
-/

namespace LogLess.Ring

/-! ## What one capture does -/

variable (hasher : Hasher) (r : Ring)

/-- The flow was opened less than the dedupe window ago. -/
def isDuplicate (flow now : ℕ) : Bool :=
  (Assoc.get r.recentFlows flow).any fun f => now - f.1 < asU64 r.config.dedupeWindow

/-- The occurrences that are held for a flow. -/
def heldFor (flow : ℕ) : ℕ := ((Assoc.get r.recentFlows flow).map Prod.snd).getD 0

/-- Neither the ceiling over all shapes nor the budget of this one is spent. -/
def hasRoom (now : ℕ) (shape : Text × ℕ) : Bool :=
  (refresh now r.globalBudget).2 < r.config.maxWindowsPerMinute ∧
    (refresh now ((Assoc.get r.budgets shape).getD (now, 0))).2 < r.config.windowsPerMinute

/-- The table in which a new flow is entered. -/
def flowsFor (flow now : ℕ) : List (ℕ × (ℕ × ℕ)) :=
  if (Assoc.get r.recentFlows flow).isSome then r.recentFlows else (r.pruneFlows now).recentFlows

theorem flowsFor_subset (flow now : ℕ) : ∀ f ∈ r.flowsFor flow now, f ∈ r.recentFlows := by
  intro f hf
  unfold flowsFor at hf
  split at hf
  · exact hf
  · unfold pruneFlows at hf
    split at hf
    · exact hf
    · simp only at hf
      split at hf
      · exact absurd hf List.not_mem_nil
      · exact (List.mem_filter.mp hf).1

theorem flowsFor_eq (h : r.recentFlows.length < maxFlows) (flow now : ℕ) :
    r.flowsFor flow now = r.recentFlows := by
  unfold flowsFor
  split
  · rfl
  · rw [pruneFlows, if_pos h]

theorem openFlow_duplicate {r : Ring} {flow now : ℕ} (h : r.isDuplicate flow now = true) :
    ∃ last count, Assoc.get r.recentFlows flow = some (last, count) ∧
      now - last < asU64 r.config.dedupeWindow ∧
      r.openFlow flow now = ({ r with
        recentFlows := Assoc.insert r.recentFlows flow (last, count + 1)
        stats := { r.stats with windowsDeduped := r.stats.windowsDeduped + 1 } }, none) := by
  unfold isDuplicate at h
  cases hget : Assoc.get r.recentFlows flow with
  | none =>
    rw [hget] at h
    cases h
  | some f =>
    rw [hget, Option.any_some, decide_eq_true_eq] at h
    refine ⟨f.1, f.2, rfl, h, ?_⟩
    unfold openFlow
    simp only [hget, if_pos h]

theorem openFlow_new {r : Ring} {flow now : ℕ} (h : r.isDuplicate flow now = false) :
    r.openFlow flow now = ({ r with
      recentFlows := Assoc.insert (r.flowsFor flow now) flow (now, 0) },
      some (r.heldFor flow)) := by
  unfold isDuplicate at h
  unfold openFlow heldFor flowsFor
  cases hget : Assoc.get r.recentFlows flow with
  | none =>
    simp only [Option.isSome_none, Option.map_none, Option.getD_none]
    unfold pruneFlows
    split <;> rfl
  | some f =>
    rw [hget, Option.any_some, decide_eq_false_iff_not] at h
    simp only [if_neg h]
    rfl

theorem limit_spec (now : ℕ) (shape : Text × ℕ) :
    (r.limit now shape).2 = r.hasRoom now shape ∧
      (r.limit now shape).1.recentFlows = r.recentFlows ∧
      (r.limit now shape).1.config = r.config ∧
      (r.limit now shape).1.stats.windowsDeduped = r.stats.windowsDeduped := by
  unfold limit hasRoom
  simp only
  split
  · next hspent =>
    refine ⟨?_, rfl, rfl, rfl⟩
    rw [eq_comm, decide_eq_false_iff_not]
    omega
  · next hroom =>
    split
    · next hspent =>
      refine ⟨?_, rfl, rfl, rfl⟩
      rw [eq_comm, decide_eq_false_iff_not]
      omega
    · next hshape =>
      refine ⟨?_, rfl, rfl, rfl⟩
      rw [eq_comm, decide_eq_true_eq]
      omega

/-- The ring with a flow entered in its table. -/
def opened (flow now : ℕ) : Ring :=
  { r with recentFlows := Assoc.insert (r.flowsFor flow now) flow (now, 0) }

/-- The flow of an error, if it has any context. -/
def flowOf (error : LogRecord) : Option ℕ :=
  (r.context hasher error).map fun context => flowHash hasher context error.templateId

/-- A flow that is no duplicate is entered, and then the budgets decide. -/
theorem capture_opened {hasher : Hasher} {r : Ring} {error : LogRecord} {context : List ContextLine}
    {flow : ℕ} (hcontext : r.context hasher error = some context)
    (hflow : flow = flowHash hasher context error.templateId)
    (hdup : r.isDuplicate flow error.observedUnixNano = false) :
    r.capture hasher error =
      (((r.opened flow error.observedUnixNano).limit error.observedUnixNano (shapeOf error)).1,
        if r.hasRoom error.observedUnixNano (shapeOf error) = true then
          .window (windowOf error context flow (r.heldFor flow))
        else .contextSuppressed .rateLimited (some flow)) := by
  have hlimit : ((r.opened flow error.observedUnixNano).limit error.observedUnixNano
      (shapeOf error)).2 = r.hasRoom error.observedUnixNano (shapeOf error) :=
    ((r.opened flow error.observedUnixNano).limit_spec error.observedUnixNano (shapeOf error)).1
  rw [← hlimit]
  unfold capture
  rw [hcontext]
  simp only
  rw [← hflow, openFlow_new hdup]
  simp only
  unfold opened
  generalize Ring.limit _ error.observedUnixNano (shapeOf error) = limited
  obtain ⟨r', room⟩ := limited
  cases room <;> rfl

/-- **The four answers** an error can get, and what becomes of the ring at each. -/
theorem capture_cases (error : LogRecord) :
    (r.flowOf hasher error = none ∧
      r.capture hasher error = (r, .contextSuppressed .noContext none)) ∨
    ∃ context flow, r.flowOf hasher error = some flow ∧
      ((r.isDuplicate flow error.observedUnixNano = true ∧
        r.capture hasher error = ((r.openFlow flow error.observedUnixNano).1,
          .contextSuppressed .duplicateFlow (some flow))) ∨
      (r.isDuplicate flow error.observedUnixNano = false ∧
        r.capture hasher error =
          (((r.opened flow error.observedUnixNano).limit error.observedUnixNano (shapeOf error)).1,
            if r.hasRoom error.observedUnixNano (shapeOf error) = true then
              .window (windowOf error context flow (r.heldFor flow))
            else .contextSuppressed .rateLimited (some flow)))) := by
  unfold flowOf
  cases hcontext : r.context hasher error with
  | none =>
    left
    unfold capture
    rw [hcontext]
    exact ⟨rfl, rfl⟩
  | some context =>
    right
    refine ⟨context, flowHash hasher context error.templateId, rfl, ?_⟩
    cases hdup : r.isDuplicate (flowHash hasher context error.templateId) error.observedUnixNano with
    | true =>
      refine .inl ⟨rfl, ?_⟩
      obtain ⟨last, count, -, -, hopen⟩ := openFlow_duplicate hdup
      unfold capture
      rw [hcontext]
      simp only
      rw [hopen]
    | false => exact .inr ⟨rfl, capture_opened hcontext rfl hdup⟩

/-! ## Histories -/

/-- A ring and what it answered, in order. -/
structure History where
  ring : Ring
  answers : List (LogRecord × Capture)

namespace History

def start (config : Config) : History := ⟨Ring.new config, []⟩

def step (h : History) : Call → History
  | .observe record => { h with ring := h.ring.observe hasher record }
  | .capture error =>
    let (ring, answer) := h.ring.capture hasher error
    ⟨ring, h.answers ++ [(error, answer)]⟩

theorem step_capture (h : History) (error : LogRecord) : h.step hasher (.capture error) =
    ⟨(h.ring.capture hasher error).1, h.answers ++ [(error, (h.ring.capture hasher error).2)]⟩ :=
  rfl

end History

/-- The observed time of the record a call is about. -/
def Call.time : Call → ℕ
  | .observe record => record.observedUnixNano
  | .capture error => error.observedUnixNano

/-- The flow an answer names. -/
def Capture.flow : Capture → Option ℕ
  | .window w => some w.flowHash
  | .contextSuppressed _ flow => flow

/-- What an answer tells of occurrences collapsed into an earlier window. -/
def Capture.suppressed : Capture → ℕ
  | .window w => w.suppressed
  | .contextSuppressed .. => 0

/-! ## Duplicates -/

/-- A duplicate is answered with the flow of a window that was sent, less than the dedupe
window before. -/
def PointsAtWindow (dedupeWindow : ℕ) (before : List (LogRecord × Capture))
    (answer : LogRecord × Capture) : Prop :=
  ∀ flow, answer.2 = .contextSuppressed .duplicateFlow (some flow) →
    ∃ error w, (error, Capture.window w) ∈ before ∧ w.flowHash = flow ∧
      error.observedUnixNano ≤ answer.1.observedUnixNano ∧
      answer.1.observedUnixNano - error.observedUnixNano < dedupeWindow

/-- A flow is opened only when there is room for its window. -/
def History.findsRoom (h : History) : Call → Bool
  | .observe _ => true
  | .capture error =>
    match h.ring.flowOf hasher error with
    | none => true
    | some flow => h.ring.isDuplicate flow error.observedUnixNano ||
      h.ring.hasRoom error.observedUnixNano (shapeOf error)

/-- Each flow of the table was opened by a window that was sent. -/
structure History.Sent (config : Config) (h : History) : Prop where
  settings : h.ring.config = config
  flows : ∀ flow last count, (flow, last, count) ∈ h.ring.recentFlows →
    ∃ error w, (error, Capture.window w) ∈ h.answers ∧ w.flowHash = flow ∧
      error.observedUnixNano = last

variable {hasher : Hasher}

/-- Entries of a table after one is written. -/
theorem mem_insert {m : List (ℕ × (ℕ × ℕ))} {flow flow' last count : ℕ} {v : ℕ × ℕ}
    (h : (flow', last, count) ∈ Assoc.insert m flow v) :
    (flow', last, count) ∈ m ∨ flow' = flow ∧ v = (last, count) := by
  rcases List.mem_append.mp h with hmem | hmem
  · exact .inl (List.mem_filter.mp hmem).1
  · rw [List.mem_singleton, Prod.mk.injEq] at hmem
    exact .inr ⟨hmem.1, hmem.2.symm⟩

theorem History.Sent.step {config : Config} {h : History} (hsent : h.Sent config) {c : Call}
    (hroom : h.findsRoom hasher c = true) : (h.step hasher c).Sent config := by
  cases c with
  | observe record => exact ⟨hsent.settings, hsent.flows⟩
  | capture error =>
    rw [History.step_capture]
    rcases h.ring.capture_cases hasher error with ⟨-, hcapture⟩ | ⟨context, flow, hflow, hcase⟩
    · rw [hcapture]
      refine ⟨hsent.settings, ?_⟩
      intro flow last count hmem
      obtain ⟨e, w, hanswer, hrest⟩ := hsent.flows flow last count hmem
      exact ⟨e, w, List.mem_append_left _ hanswer, hrest⟩
    simp only [History.findsRoom, hflow] at hroom
    rcases hcase with ⟨hdup, hcapture⟩ | ⟨hdup, hcapture⟩
    · -- a duplicate: the flow keeps the time it was opened
      obtain ⟨last, count, hget, -, hopen⟩ := openFlow_duplicate hdup
      rw [hcapture, hopen]
      refine ⟨hsent.settings, ?_⟩
      intro flow' last' count' hmem
      rcases mem_insert hmem with hold | ⟨rfl, heq⟩
      · obtain ⟨e, w, hanswer, hrest⟩ := hsent.flows _ _ _ hold
        exact ⟨e, w, List.mem_append_left _ hanswer, hrest⟩
      · obtain ⟨rfl, -⟩ := Prod.mk.inj heq
        obtain ⟨e, w, hanswer, hrest⟩ := hsent.flows _ _ _ (Assoc.mem_of_get hget)
        exact ⟨e, w, List.mem_append_left _ hanswer, hrest⟩
    · -- a flow that is opened: there is room, so its window is sent
      rw [hdup, Bool.false_or] at hroom
      rw [if_pos hroom] at hcapture
      rw [hcapture]
      obtain ⟨-, hflows, hconfig, -⟩ := (h.ring.opened flow error.observedUnixNano).limit_spec
        error.observedUnixNano (shapeOf error)
      refine ⟨hconfig.trans hsent.settings, ?_⟩
      intro flow' last' count' hmem
      simp only at hmem
      rw [hflows] at hmem
      rcases mem_insert hmem with hold | ⟨rfl, heq⟩
      · obtain ⟨e, w, hanswer, hrest⟩ := hsent.flows _ _ _
          (h.ring.flowsFor_subset _ _ _ hold)
        exact ⟨e, w, List.mem_append_left _ hanswer, hrest⟩
      · obtain ⟨rfl, -⟩ := Prod.mk.inj heq
        exact ⟨error, _, List.mem_append_right _ (List.mem_singleton_self _), rfl, rfl⟩

/-- Every answer is about an error that was captured. -/
theorem mem_answers {config : Config} {calls : List Call} {error : LogRecord} {answer : Capture}
    (h : (error, answer) ∈ (Runs.run (History.step hasher) (.start config) calls).answers) :
    Call.capture error ∈ calls := by
  induction calls using List.reverseRecOn with
  | nil => exact absurd h List.not_mem_nil
  | append_singleton calls c ih =>
    rw [Runs.run_concat] at h
    cases c with
    | observe record => exact List.mem_append_left _ (ih h)
    | capture e =>
      rcases List.mem_append.mp h with hold | hnew
      · exact List.mem_append_left _ (ih hold)
      · obtain ⟨rfl, -⟩ := Prod.mk.inj (List.mem_singleton.mp hnew)
        exact List.mem_append_right _ (List.mem_singleton_self _)

/-- **A duplicate points at a window that was sent**, less than the dedupe window before, in
every run in which no time is less than an earlier one and no flow is opened without room
for its window. -/
theorem duplicate_points_at_window (hasher : Hasher) (config : Config) (calls : List Call)
    (hsorted : (calls.map Call.time).Pairwise (· ≤ ·))
    (hroom : Runs.Meets (History.step hasher) (fun h c => h.findsRoom hasher c = true)
      (.start config) calls) :
    Lists.Each (PointsAtWindow config.dedupeWindow)
      (Runs.run (History.step hasher) (.start config) calls).answers := by
  induction calls using List.reverseRecOn with
  | nil => exact Lists.each_nil
  | append_singleton calls c ih =>
    rw [List.map_append, List.pairwise_append] at hsorted
    have hbefore := ih hsorted.1 hroom.append_left
    rw [Runs.run_concat]
    cases c with
    | observe record => exact hbefore
    | capture error =>
      have hsent : (Runs.run (History.step hasher) (.start config) calls).Sent config :=
        hroom.append_left.invariant (fun h c hs hok => hs.step hok)
          ⟨rfl, fun _ _ _ hmem => absurd hmem List.not_mem_nil⟩
      have hlate : ∀ e answer,
          (e, answer) ∈ (Runs.run (History.step hasher) (.start config) calls).answers →
          e.observedUnixNano ≤ error.observedUnixNano := by
        intro e answer hmem
        exact hsorted.2.2 _ (List.mem_map_of_mem (mem_answers hmem)) _ (List.mem_singleton_self _)
      set h := Runs.run (History.step hasher) (.start config) calls
      show Lists.Each _ (h.answers ++ [(error, (h.ring.capture hasher error).2)])
      rw [Lists.each_concat]
      refine ⟨hbefore, ?_⟩
      intro flow hanswer
      simp only at hanswer
      rcases h.ring.capture_cases hasher error with ⟨-, hcapture⟩ | ⟨context, flow', -, hcase⟩
      · rw [hcapture] at hanswer
        cases hanswer
      rcases hcase with ⟨hdup, hcapture⟩ | ⟨-, hcapture⟩
      · rw [hcapture] at hanswer
        cases hanswer
        obtain ⟨last, count, hget, hrecent, -⟩ := openFlow_duplicate hdup
        obtain ⟨e, w, hsentAt, hflow, hlast⟩ := hsent.flows _ _ _ (Assoc.mem_of_get hget)
        refine ⟨e, w, hsentAt, hflow, hlate e _ hsentAt, ?_⟩
        rw [hlast, ← hsent.settings]
        exact hrecent.trans_le (Nat.mod_le _ _)
      · rw [hcapture] at hanswer
        simp only at hanswer
        split at hanswer <;> cases hanswer

/-! An error of a template, and a ring that may send one window in a minute. -/

theorem length_noBytes : (List.replicate 16 (0 : UInt8)).length = 16 := List.length_replicate

def exampleLine (time template : ℕ) (body : String) : LogRecord :=
  { LogRecord.new ⟨List.replicate 16 0, length_noBytes⟩ time .ERROR body.toList with
    templateId := some template }

/-- A flow is told by the template of its error. -/
def exampleHasher : Hasher := ⟨fun _ => 0, fun _ template => template.getD 0⟩

def oneWindow : Config := ⟨1, 10000, 10, 10 ^ 9, 5, 5, 1, 10⟩

/-- A line, an error, an error of another shape, and that one again. -/
def openedWithoutRoom : List Call :=
  [.observe (exampleLine 1 1 "line"), .capture (exampleLine 2 5 "error"),
    .capture (exampleLine 3 6 "other"), .capture (exampleLine 4 6 "other")]

theorem duplicate_points_at_window_first :
    Lists.Each (PointsAtWindow 10) (Runs.run (History.step exampleHasher) (.start oneWindow)
      [.observe (exampleLine 1 1 "line"), .capture (exampleLine 2 5 "error"),
        .capture (exampleLine 3 5 "error")]).answers :=
  duplicate_points_at_window exampleHasher oneWindow _ (by decide +kernel) (by decide +kernel)

/-- The second error finds no room, and the third is answered with its flow: no window of that
flow was ever sent. -/
theorem duplicate_of_nothing :
    (openedWithoutRoom.map Call.time).Pairwise (· ≤ ·) ∧
      ¬ Lists.Each (PointsAtWindow oneWindow.dedupeWindow)
        (Runs.run (History.step exampleHasher) (.start oneWindow) openedWithoutRoom).answers := by
  refine ⟨by decide +kernel, ?_⟩
  set answers := (Runs.run (History.step exampleHasher) (.start oneWindow) openedWithoutRoom).answers
    with hanswers
  have hlast : answers = answers.take 2 ++
      [(exampleLine 4 6 "other", .contextSuppressed .duplicateFlow (some 6))] := by
    rw [hanswers]
    decide +kernel
  have hnone : (answers.take 2).all (fun a =>
      match a.2 with
      | .window w => w.flowHash != 6
      | _ => true) = true := by
    rw [hanswers]
    decide +kernel
  clear_value answers
  intro heach
  obtain ⟨error, w, hmem, hflow, -⟩ := heach _ _ [] hlast 6 rfl
  have hw : (w.flowHash != 6) = true := List.all_eq_true.mp hnone _ hmem
  rw [hflow] at hw
  cases hw

/-! ## What was collapsed -/

/-- What the windows of a history told of occurrences collapsed into earlier ones. -/
def History.told (h : History) : ℕ := (h.answers.map fun a => a.2.suppressed).sum

/-- What the table of flows holds of occurrences that are yet to be told. -/
def heldCounts : ℕ := (r.recentFlows.map fun f => f.2.2).sum

/-- The flows of a history, each once. -/
def History.flows (h : History) : Finset ℕ := (h.answers.filterMap fun a => a.2.flow).toFinset

/-- A flow that holds a count is opened anew only when there is room for its window. -/
def History.keepsCount (hasher : Hasher) (h : History) : Call → Bool
  | .observe _ => true
  | .capture error =>
    match h.ring.flowOf hasher error with
    | none => true
    | some flow => h.ring.isDuplicate flow error.observedUnixNano ||
      h.ring.hasRoom error.observedUnixNano (shapeOf error) || h.ring.heldFor flow = 0

/-- Every flow of the table was named by an answer, and is there once. -/
structure History.Named (h : History) : Prop where
  nodup : (h.ring.recentFlows.map Prod.fst).Nodup
  named : ∀ flow ∈ h.ring.recentFlows.map Prod.fst, flow ∈ h.flows

theorem History.Named.length_le {h : History} (hnamed : h.Named) :
    h.ring.recentFlows.length ≤ h.flows.card := by
  have hsub : (h.ring.recentFlows.map Prod.fst).toFinset ⊆ h.flows := by
    intro flow hflow
    exact hnamed.named flow (List.mem_toFinset.mp hflow)
  have hcard := Finset.card_le_card hsub
  rw [List.toFinset_card_of_nodup hnamed.nodup, List.length_map] at hcard
  exact hcard

theorem History.flows_step (h : History) (c : Call) : h.flows ⊆ (h.step hasher c).flows := by
  cases c with
  | observe record => exact Finset.Subset.refl _
  | capture error =>
    intro flow hflow
    rw [History.step_capture]
    unfold History.flows at hflow ⊢
    rw [List.filterMap_append, List.mem_toFinset]
    exact List.mem_append_left _ (List.mem_toFinset.mp hflow)

theorem History.flows_capture {h : History} {error : LogRecord} {flow : ℕ}
    (hanswer : (h.ring.capture hasher error).2.flow = some flow) :
    flow ∈ (h.step hasher (.capture error)).flows := by
  rw [History.step_capture]
  unfold History.flows
  rw [List.filterMap_append, List.mem_toFinset]
  refine List.mem_append_right _ (List.mem_filterMap.mpr ⟨_, List.mem_singleton_self _, ?_⟩)
  exact hanswer

theorem History.told_capture (h : History) (error : LogRecord) :
    (h.step hasher (.capture error)).told = h.told + (h.ring.capture hasher error).2.suppressed := by
  rw [History.step_capture]
  unfold History.told
  rw [List.map_append, List.sum_append]
  simp

/-- An answer about a flow that is written in the table. -/
theorem History.Named.written {h : History} (hnamed : h.Named) {error : LogRecord} {flow : ℕ}
    {v : ℕ × ℕ} (hanswer : (h.ring.capture hasher error).2.flow = some flow)
    (hflows : (h.ring.capture hasher error).1.recentFlows
      = Assoc.insert h.ring.recentFlows flow v) :
    (h.step hasher (.capture error)).Named := by
  constructor
  · rw [History.step_capture]
    simp only
    rw [hflows]
    exact Assoc.nodup_keys_insert hnamed.nodup flow v
  · intro flow' hflow'
    have hmem : flow' ∈ (Assoc.insert h.ring.recentFlows flow v).map Prod.fst := by
      rw [← hflows]
      exact hflow'
    rcases Assoc.mem_keys_insert.mp hmem with rfl | hold
    · exact History.flows_capture hanswer
    · exact h.flows_step _ (hnamed.named _ hold)

/-- **What one call does to the counts**: every occurrence that is collapsed is held or told,
but for those held for a flow that is opened anew without room. -/
theorem History.Named.step {h : History} (hnamed : h.Named) (hfew : h.flows.card < maxFlows)
    (c : Call) :
    (h.step hasher c).Named ∧
    ∃ lost, (h.step hasher c).told + (h.step hasher c).ring.heldCounts + lost
        + h.ring.stats.windowsDeduped
      = h.told + h.ring.heldCounts + (h.step hasher c).ring.stats.windowsDeduped ∧
    (lost = 0 ↔ h.keepsCount hasher c = true) := by
  cases c with
  | observe record => exact ⟨⟨hnamed.nodup, hnamed.named⟩, 0, rfl, iff_of_true rfl rfl⟩
  | capture error =>
    have htold := @History.told_capture hasher h error
    have hring : (h.step hasher (.capture error)).ring = (h.ring.capture hasher error).1 := rfl
    rw [htold, hring]
    simp only [History.keepsCount]
    rcases h.ring.capture_cases hasher error with ⟨hflow, hcapture⟩ | ⟨context, flow, hflow, hcase⟩
    · -- no context: nothing moves
      have hsame : (h.step hasher (.capture error)).ring = h.ring := by rw [hring, hcapture]
      rw [hcapture, hflow]
      refine ⟨⟨hsame ▸ hnamed.nodup, ?_⟩, 0, rfl, iff_of_true rfl rfl⟩
      rw [hsame]
      exact fun flow hmem => h.flows_step _ (hnamed.named flow hmem)
    have hcounts := Assoc.sum_insert hnamed.nodup (fun v : ℕ × ℕ => v.2) flow
    have hheld : h.ring.heldFor flow
      = ((Assoc.get h.ring.recentFlows flow).map fun v => v.2).getD 0 := rfl
    rw [hflow]
    simp only
    rcases hcase with ⟨hdup, hcapture⟩ | ⟨hdup, hcapture⟩
    · -- a duplicate: one more is held
      obtain ⟨last, count, hget, -, hopen⟩ := openFlow_duplicate hdup
      rw [hopen] at hcapture
      refine ⟨hnamed.written (by rw [hcapture]; rfl) (by rw [hcapture]), 0, ?_, ?_⟩
      · have hinsert := hcounts (last, count + 1)
        rw [hget, Option.map_some, Option.getD_some] at hinsert
        rw [hcapture]
        simp only [Capture.suppressed, heldCounts]
        omega
      · rw [hdup]
        exact iff_of_true rfl rfl
    · -- a flow that is opened: what it held is told, if there is room
      have hsame := flowsFor_eq h.ring (hnamed.length_le.trans_lt hfew) flow error.observedUnixNano
      obtain ⟨-, hflows, -, hstats⟩ := (h.ring.opened flow error.observedUnixNano).limit_spec
        error.observedUnixNano (shapeOf error)
      have hwritten : (h.ring.opened flow error.observedUnixNano).recentFlows
          = Assoc.insert h.ring.recentFlows flow (error.observedUnixNano, 0) := by
        rw [opened, hsame]
      rw [hwritten] at hflows
      have hinsert := hcounts (error.observedUnixNano, 0)
      rw [← hheld] at hinsert
      have hnames : (h.step hasher (.capture error)).Named := by
        refine hnamed.written ?_ (by rw [hcapture]; exact hflows)
        rw [hcapture]
        simp only
        split <;> rfl
      rw [hdup, hcapture, Bool.false_or]
      simp only
      rw [hstats]
      refine ⟨hnames, ?_⟩
      cases hroom : h.ring.hasRoom error.observedUnixNano (shapeOf error) with
      | true =>
        refine ⟨0, ?_, iff_of_true rfl rfl⟩
        simp only [if_pos, Capture.suppressed, windowOf, heldCounts]
        rw [hflows]
        have hdeduped : (h.ring.opened flow error.observedUnixNano).stats = h.ring.stats := rfl
        rw [hdeduped]
        omega
      | false =>
        refine ⟨h.ring.heldFor flow, ?_, ?_⟩
        · simp only [Bool.false_eq_true, if_false, Capture.suppressed, heldCounts]
          rw [hflows]
          have hdeduped : (h.ring.opened flow error.observedUnixNano).stats = h.ring.stats := rfl
          rw [hdeduped]
          omega
        · rw [Bool.false_or, decide_eq_true_eq]

/-- The counts of a run: what is told and held is never more than what was collapsed, and it is
all of that just when no flow that held a count was opened anew without room. -/
theorem counts_run (hasher : Hasher) (config : Config) (calls : List Call)
    (hfew : (Runs.run (History.step hasher) (.start config) calls).flows.card < maxFlows) :
    (Runs.run (History.step hasher) (.start config) calls).Named ∧
    (Runs.run (History.step hasher) (.start config) calls).told
        + (Runs.run (History.step hasher) (.start config) calls).ring.heldCounts
      ≤ (Runs.run (History.step hasher) (.start config) calls).ring.stats.windowsDeduped ∧
    ((Runs.run (History.step hasher) (.start config) calls).told
        + (Runs.run (History.step hasher) (.start config) calls).ring.heldCounts
      = (Runs.run (History.step hasher) (.start config) calls).ring.stats.windowsDeduped ↔
      Runs.Meets (History.step hasher) (fun h c => h.keepsCount hasher c = true)
        (.start config) calls) := by
  induction calls using List.reverseRecOn with
  | nil =>
    refine ⟨⟨List.nodup_nil, ?_⟩, le_rfl, iff_of_true rfl (Runs.Meets.nil _)⟩
    exact fun flow hmem => absurd hmem List.not_mem_nil
  | append_singleton calls c ih =>
    rw [Runs.run_concat] at hfew ⊢
    rw [Runs.meets_concat]
    have hfewer := (Finset.card_le_card (History.flows_step _ c)).trans_lt hfew
    obtain ⟨hnamed, hle, hiff⟩ := ih hfewer
    obtain ⟨hnext, lost, hsum, hlost⟩ := hnamed.step hfewer c
    refine ⟨hnext, by omega, ?_⟩
    rw [← hiff, ← hlost]
    omega

/-- **What is collapsed is accounted for**: with fewer flows than the table may hold, the
counts that windows told and those that are held add up to the occurrences that were collapsed,
exactly if no flow that held a count was opened anew without room for its window. -/
theorem collapsed_accounted (hasher : Hasher) (config : Config) (calls : List Call)
    (hfew : (Runs.run (History.step hasher) (.start config) calls).flows.card < 10000) :
    let h := Runs.run (History.step hasher) (.start config) calls
    h.told + h.ring.heldCounts = h.ring.stats.windowsDeduped ↔
      Runs.Meets (History.step hasher) (fun h c => h.keepsCount hasher c = true)
        (.start config) calls :=
  (counts_run hasher config calls hfew).2.2

/-- An error, its duplicate, and the same error when the dedupe window is over but the minute
is not. -/
def reopenedWithoutRoom : List Call :=
  [.observe (exampleLine 1 1 "line"), .capture (exampleLine 2 5 "error"),
    .capture (exampleLine 3 5 "error"), .capture (exampleLine 20 5 "error")]

theorem collapsed_accounted_reopened :
    let h := Runs.run (History.step exampleHasher) (.start oneWindow) reopenedWithoutRoom
    h.told + h.ring.heldCounts = h.ring.stats.windowsDeduped ↔
      Runs.Meets (History.step exampleHasher) (fun h c => h.keepsCount exampleHasher c = true)
        (.start oneWindow) reopenedWithoutRoom :=
  collapsed_accounted exampleHasher oneWindow reopenedWithoutRoom (by decide +kernel)

/-- One occurrence was collapsed; none is told and none is held. -/
theorem collapsed_lost :
    (reopenedWithoutRoom.map Call.time).Pairwise (· ≤ ·) ∧
      let h := Runs.run (History.step exampleHasher) (.start oneWindow) reopenedWithoutRoom
      h.flows.card < 10000 ∧ h.told + h.ring.heldCounts = 0 ∧ h.ring.stats.windowsDeduped = 1 := by
  decide +kernel

end LogLess.Ring
