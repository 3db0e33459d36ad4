import LogLess.Lib.Runs
import LogLess.Agent.Process

/-!
# Lifetime counters and the audit

A session is a run of the record path with the writer taking records beside it. At a
clean end its counters are added to the lifetime counters, which `logless verify`
compares with what the store and the log hold.

A DEBUG record refused under critical pressure is added to `dropped` but was never
counted as `received`, so the two sides of the balance differ by exactly these records.
-/

namespace LogLess.Agent

/-- `Counters`. -/
structure Counters where
  received : ℕ
  enqueued : ℕ
  dropped : ℕ
deriving DecidableEq, Repr

namespace Counters

def zero : Counters := ⟨0, 0, 0⟩

def addSession (c : Counters) (received enqueued dropped : ℕ) : Counters :=
  ⟨c.received + received, c.enqueued + enqueued, c.dropped + dropped⟩

end Counters

/-- The whole-path accounting check. -/
structure Audit where
  received : ℕ
  committed : ℕ
  inWal : ℕ
  dropped : ℕ

def Audit.unaccounted (a : Audit) : ℤ := a.received - (a.committed + a.inWal + a.dropped : ℕ)

/-! ## Sessions -/

inductive SessionEvent where
  /-- The loop has a record of some source in hand. -/
  | record (r : LogRecord) (m : Moment)
  /-- The writer takes up to `n` records. -/
  | take (n : ℕ)
  /-- The writer is gone. -/
  | disconnect

/-- The record loop while it runs; `done` once `process` has said that the cap is hit. -/
structure Loop where
  intake : Intake
  done : Bool

def Loop.step (s : Settings) (l : Loop) : SessionEvent → Loop
  | .record r m =>
    if l.done then l
    else match l.intake.process s m r with
      | none => l
      | some (intake, more) => ⟨intake, !more⟩
  | .take n =>
    { l with intake := { l.intake with queue := (l.intake.queue.nextBatch n).2 } }
  | .disconnect =>
    { l with intake := { l.intake with queue := { l.intake.queue with disconnected := true } } }

/-- One session of the agent, from its start to a clean end. -/
structure Session where
  settings : Settings
  events : List SessionEvent

namespace Session

def start (s : Session) : Loop := ⟨.new s.settings, false⟩

/-- The loop at the end of the session. -/
def final (s : Session) : Loop := Runs.run (Loop.step s.settings) s.start s.events

/-- What the session adds to the lifetime counters. -/
def finish (c : Counters) (s : Session) : Counters :=
  let stats := s.final.intake.queue.stats
  c.addSession stats.received stats.enqueued (stats.dropped + s.final.intake.refusedDebug)

end Session

/-- The counters after a number of sessions of an agent that started with none. -/
def lifetime (sessions : List Session) : Counters := sessions.foldl Session.finish .zero

/-- A step at which a DEBUG record that is routed meets critical pressure. -/
def RefusesDebug (s : Settings) (l : Loop) : SessionEvent → Prop
  | .record r m =>
    l.done = false ∧ (s.tenancy.routeRecord s.showFloat r attrIndex).2 ≠ .refused ∧
      m.pressure = 2 ∧ r.levelClass = .debug
  | _ => False

/-! ## The balance of one session -/

theorem severity_stored (s : Settings) (r : LogRecord) (mined : Option ℕ) :
    (Intake.stored s r mined).levelClass = r.levelClass := by
  unfold Intake.stored Tenancy.routeRecord
  split
  · rfl
  · simp only
    split <;> rfl

theorem refusedAtDoor_stored (s : Settings) (m : Moment) (r : LogRecord) :
    Intake.refusedAtDoor m (Intake.stored s r m.mined) = true ↔
      m.pressure = 2 ∧ r.levelClass = .debug := by
  simp [Intake.refusedAtDoor, severity_stored]

/-- The queue's counters balance after every step. -/
theorem Loop.accounts_step (s : Settings) (l : Loop) (e : SessionEvent)
    (h : l.intake.queue.stats.AccountsForEverything) :
    (l.step s e).intake.queue.stats.AccountsForEverything := by
  cases e with
  | record r m =>
    simp only [Loop.step]
    split
    · exact h
    · split
      · exact h
      · next i more hp =>
        obtain ⟨-, -, ⟨-, hq, -⟩ | ⟨-, -, hq, -⟩ | ⟨-, -, -, a, hsub⟩⟩ := Intake.process_cases hp
        · rw [hq]
          exact h
        · rw [hq]
          exact h
        · rw [(IngestQueue.submit_eq_some hsub).2]
          exact h.count a
  | take n => exact h
  | disconnect => exact h

/-- The refusals at the door are counted, and only they. -/
theorem Loop.refusedDebug_step (s : Settings) (l : Loop) (e : SessionEvent) :
    (¬ RefusesDebug s l e → (l.step s e).intake.refusedDebug = l.intake.refusedDebug) ∧
      (RefusesDebug s l e → (l.step s e).intake.refusedDebug = l.intake.refusedDebug + 1) := by
  cases e with
  | record r m =>
    simp only [Loop.step, RefusesDebug]
    split
    · next hd => simp [hd]
    · next hd =>
      split
      · next hp =>
        -- a record that waits for room was not refused at the door
        refine ⟨fun _ => rfl, ?_⟩
        rintro ⟨-, -, hdoor⟩
        rw [← refusedAtDoor_stored s, Intake.process_eq_none hp] at hdoor
        cases hdoor
      · next i more hp =>
        obtain ⟨-, -, ⟨hroute, -, hr⟩ | ⟨hroute, hdoor, -, hr⟩ | ⟨hroute, hdoor, hr, -⟩⟩ :=
          Intake.process_cases hp
        · exact ⟨fun _ => hr, fun h => absurd hroute h.2.1⟩
        · rw [refusedAtDoor_stored] at hdoor
          refine ⟨fun h => absurd ⟨by simpa using hd, hroute, hdoor⟩ h, fun _ => hr⟩
        · refine ⟨fun _ => hr, fun h => ?_⟩
          rw [← Bool.not_eq_true, refusedAtDoor_stored] at hdoor
          exact absurd h.2.2 hdoor
  | take n => exact ⟨fun _ => rfl, False.elim⟩
  | disconnect => exact ⟨fun _ => rfl, False.elim⟩

namespace Session

theorem accounts (s : Session) : s.final.intake.queue.stats.AccountsForEverything := by
  have hstart : s.start.intake.queue.stats.AccountsForEverything := rfl
  exact Runs.run_invariant (fun l e h => Loop.accounts_step s.settings l e h) hstart s.events

/-- A session without a refusal at the door is one that never met critical pressure with a
DEBUG record in hand. -/
theorem refusedDebug_eq_zero_iff (s : Session) :
    s.final.intake.refusedDebug = 0 ↔
      Runs.Meets (Loop.step s.settings) (fun l e => ¬ RefusesDebug s.settings l e) s.start
        s.events := by
  rw [Runs.meets_iff_counter (f := fun l => l.intake.refusedDebug)]
  · rfl
  · exact fun l e h => (l.refusedDebug_step s.settings e).1 h
  · intro l e h
    rw [not_not] at h
    have := (l.refusedDebug_step s.settings e).2 h
    omega

end Session

/-! ## The balance over a lifetime -/

/-- The two sides of the balance differ by the refusals at the door. -/
theorem lifetime_balance (sessions : List Session) :
    (lifetime sessions).received + (sessions.map fun s => s.final.intake.refusedDebug).sum
      = (lifetime sessions).enqueued + (lifetime sessions).dropped := by
  suffices h : ∀ (c : Counters) (r : ℕ), c.received + r = c.enqueued + c.dropped →
      (sessions.foldl Session.finish c).received + r
          + (sessions.map fun s => s.final.intake.refusedDebug).sum
        = (sessions.foldl Session.finish c).enqueued
          + (sessions.foldl Session.finish c).dropped by
    simpa [lifetime] using h .zero 0 rfl
  induction sessions with
  | nil => simp
  | cons s sessions ih =>
    intro c r hc
    have hs := s.accounts
    unfold IngestStats.AccountsForEverything at hs
    have hnext := ih (s.finish c) (r + s.final.intake.refusedDebug) (by
      simp only [Session.finish, Counters.addSession]
      omega)
    simp only [List.foldl_cons, List.map_cons, List.sum_cons]
    omega

end LogLess.Agent
