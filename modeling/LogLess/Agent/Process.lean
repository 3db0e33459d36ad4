import LogLess.Config
import LogLess.Queue

/-!
# The record path

Every record of every source goes through `process`: it is routed, given a template id,
refused at the door if it is DEBUG and the disk is critically full, and otherwise
submitted to the queue. What the miner answers, the pressure and the outcome of a wait
for room are arguments of the call.
-/

namespace LogLess.Agent

structure RouteStats where
  defaulted : ℕ
  refused : ℕ
deriving DecidableEq

/-- What stays the same while the agent runs. -/
structure Settings where
  tenancy : Tenancy
  showFloat : UInt64 → Text
  /-- `max_records`; zero is no cap. -/
  maxRecords : ℕ
  queueCapacity : ℕ

/-- An instance with the standard buckets and no cap. -/
def plainSettings : Settings where
  tenancy := ⟨[⟨defaultTenant, .default, [⟨defaultIndex, .standard⟩]⟩], "node-a".toList, by decide⟩
  showFloat := fun _ => []
  maxRecords := 0
  queueCapacity := 65536

/-- What `process` reads of its surroundings while it handles one record. -/
structure Moment where
  /-- The disk pressure: 2 is critical. -/
  pressure : ℕ
  /-- The shape id the miner gives the body, if it gives one. -/
  mined : Option ℕ
  /-- Whether the wait for room in the queue has run out. -/
  timedOut : Bool

/-- The state of the record path. -/
structure Intake where
  queue : IngestQueue
  count : ℕ
  refusedDebug : ℕ
  routes : RouteStats

namespace Intake

def new (s : Settings) : Intake := ⟨.channel s.queueCapacity, 0, 0, ⟨0, 0⟩⟩

/-- A record counted; the result says whether the cap leaves room for more. -/
def counted (s : Settings) (i : Intake) : Intake × Bool :=
  let count := i.count + 1
  ({ i with count := count }, !(0 < s.maxRecords && s.maxRecords ≤ count))

/-- The form in which a record that is routed is stored: its index attribute rewritten,
its template id given. -/
def stored (s : Settings) (record : LogRecord) (mined : Option ℕ) : LogRecord :=
  let routed := (s.tenancy.routeRecord s.showFloat record attrIndex).1
  { routed with templateId := routed.templateId.or mined }

/-- Whether a record is turned away at the door under critical pressure. -/
def refusedAtDoor (m : Moment) (record : LogRecord) : Bool :=
  m.pressure == 2 && record.levelClass == .debug

/-- The routing decision counted. -/
def noteRoute (i : Intake) : Route → Intake
  | .known _ => i
  | .defaulted _ => { i with routes := { i.routes with defaulted := i.routes.defaulted + 1 } }
  | .refused => { i with routes := { i.routes with refused := i.routes.refused + 1 } }

/-- `process`; `none` while the record waits for room in the queue. -/
def process (s : Settings) (m : Moment) (i : Intake) (record : LogRecord) :
    Option (Intake × Bool) :=
  let route := (s.tenancy.routeRecord s.showFloat record attrIndex).2
  let record := stored s record m.mined
  let i := i.noteRoute route
  if route = .refused then some (counted s i)
  else if refusedAtDoor m record then
    some (counted s { i with refusedDebug := i.refusedDebug + 1 })
  else do
    let (queue, _) ← i.queue.submit record m.timedOut
    return counted s { i with queue := queue }

/-! ## What one call can do -/

@[simp] theorem queue_noteRoute (i : Intake) (r : Route) : (i.noteRoute r).queue = i.queue := by
  cases r <;> rfl

@[simp] theorem count_noteRoute (i : Intake) (r : Route) : (i.noteRoute r).count = i.count := by
  cases r <;> rfl

@[simp] theorem refusedDebug_noteRoute (i : Intake) (r : Route) :
    (i.noteRoute r).refusedDebug = i.refusedDebug := by
  cases r <;> rfl

variable {s : Settings} {m : Moment} {i i' : Intake} {record : LogRecord} {more : Bool}

/-- What one call of `process` can do. -/
theorem process_cases (h : process s m i record = some (i', more)) :
    i'.count = i.count + 1 ∧ (more = !(0 < s.maxRecords && s.maxRecords ≤ i'.count)) ∧
      ((s.tenancy.routeRecord s.showFloat record attrIndex).2 = .refused ∧
          i'.queue = i.queue ∧ i'.refusedDebug = i.refusedDebug ∨
        (s.tenancy.routeRecord s.showFloat record attrIndex).2 ≠ .refused ∧
          refusedAtDoor m (stored s record m.mined) = true ∧
          i'.queue = i.queue ∧ i'.refusedDebug = i.refusedDebug + 1 ∨
        (s.tenancy.routeRecord s.showFloat record attrIndex).2 ≠ .refused ∧
          refusedAtDoor m (stored s record m.mined) = false ∧
          i'.refusedDebug = i.refusedDebug ∧
          ∃ a, i.queue.submit (stored s record m.mined) m.timedOut = some (i'.queue, a)) := by
  unfold process at h
  simp only at h
  split at h
  · next hroute =>
    simp only [counted, Option.some.injEq, Prod.mk.injEq] at h
    obtain ⟨rfl, rfl⟩ := h
    exact ⟨by simp, rfl, .inl ⟨hroute, by simp, by simp⟩⟩
  · next hroute =>
    split at h
    · next hdoor =>
      simp only [counted, Option.some.injEq, Prod.mk.injEq] at h
      obtain ⟨rfl, rfl⟩ := h
      exact ⟨by simp, rfl, .inr (.inl ⟨hroute, hdoor, by simp, by simp⟩)⟩
    · next hdoor =>
      obtain ⟨⟨q, a⟩, hsub, h⟩ := Option.bind_eq_some_iff.mp h
      simp only [counted, Option.pure_def, Option.some.injEq, Prod.mk.injEq] at h
      obtain ⟨rfl, rfl⟩ := h
      rw [queue_noteRoute] at hsub
      exact ⟨by simp, rfl, .inr (.inr ⟨hroute, by simpa using hdoor, by simp, a, hsub⟩)⟩

/-- A record that waits for room is past the door. -/
theorem process_eq_none (h : process s m i record = none) :
    refusedAtDoor m (stored s record m.mined) = false := by
  unfold process at h
  simp only at h
  split at h
  · cases h
  · split at h
    · cases h
    · next hdoor => simpa using hdoor

end Intake

end LogLess.Agent
