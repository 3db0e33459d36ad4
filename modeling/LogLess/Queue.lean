import LogLess.Model

/-!
# The bounded ingest queue

`IngestQueue::submit` either enqueues a record, sheds it by severity or finds the writer
gone, and counts which. A record of WARN or above waits for room; whether its time has
run out is an argument, and while it has not the call does not return.
-/

namespace LogLess

inductive Admission where
  | enqueued
  | shed (class_ : LevelClass)
  | closed
deriving DecidableEq, Repr

structure IngestStats where
  received : ℕ
  enqueued : ℕ
  droppedDebug : ℕ
  droppedInfo : ℕ
  droppedCritical : ℕ
  closed : ℕ
deriving DecidableEq, Repr

namespace IngestStats

def zero : IngestStats := ⟨0, 0, 0, 0, 0, 0⟩

def dropped (s : IngestStats) : ℕ := s.droppedDebug + s.droppedInfo + s.droppedCritical + s.closed

/-- Every record is either stored or counted as lost. -/
def AccountsForEverything (s : IngestStats) : Prop := s.received = s.enqueued + s.dropped

/-- The counters after a record came to this end. -/
def count (s : IngestStats) : Admission → IngestStats
  | .enqueued => { s with received := s.received + 1, enqueued := s.enqueued + 1 }
  | .shed .debug => { s with received := s.received + 1, droppedDebug := s.droppedDebug + 1 }
  | .shed .info => { s with received := s.received + 1, droppedInfo := s.droppedInfo + 1 }
  | .shed .warnPlus =>
    { s with received := s.received + 1, droppedCritical := s.droppedCritical + 1 }
  | .closed => { s with received := s.received + 1, closed := s.closed + 1 }

theorem AccountsForEverything.count {s : IngestStats} (h : s.AccountsForEverything)
    (a : Admission) : (s.count a).AccountsForEverything := by
  unfold AccountsForEverything dropped at *
  cases a with
  | enqueued => simp only [IngestStats.count]; omega
  | shed c => cases c <;> simp only [IngestStats.count] <;> omega
  | closed => simp only [IngestStats.count]; omega

end IngestStats

structure IngestQueue where
  capacity : ℕ
  /-- The records enqueued and not yet taken, oldest first. -/
  items : List LogRecord
  /-- The consumer is gone. -/
  disconnected : Bool
  stats : IngestStats
deriving DecidableEq

namespace IngestQueue

/-- `channel`. -/
def channel (capacity : ℕ) : IngestQueue := ⟨capacity, [], false, .zero⟩

def len (q : IngestQueue) : ℕ := q.items.length

/-- What becomes of a record offered now; `none` while it waits for room. -/
def admission (q : IngestQueue) (record : LogRecord) (timedOut : Bool) : Option Admission :=
  if q.disconnected then some .closed
  else if q.len < q.capacity then some .enqueued
  else if record.levelClass ≠ .warnPlus then some (.shed record.levelClass)
  -- a full queue: a bounded wait for room
  else if timedOut then some (.shed record.levelClass)
  else none

def submit (q : IngestQueue) (record : LogRecord) (timedOut : Bool) :
    Option (IngestQueue × Admission) := do
  let a ← q.admission record timedOut
  let items := if a = .enqueued then q.items ++ [record] else q.items
  return ({ q with items := items, stats := q.stats.count a }, a)

/-- The consumer takes up to `n` records. -/
def nextBatch (q : IngestQueue) (n : ℕ) : List LogRecord × IngestQueue :=
  (q.items.take n, { q with items := q.items.drop n })

theorem submit_eq_some {q q' : IngestQueue} {record : LogRecord} {timedOut : Bool} {a : Admission}
    (h : q.submit record timedOut = some (q', a)) :
    q.admission record timedOut = some a ∧
      q' = { q with
        items := if a = .enqueued then q.items ++ [record] else q.items
        stats := q.stats.count a } := by
  unfold submit at h
  obtain ⟨b, hb, h⟩ := Option.bind_eq_some_iff.mp h
  simp only [Option.pure_def, Option.some.injEq, Prod.mk.injEq] at h
  obtain ⟨rfl, rfl⟩ := h
  exact ⟨hb, rfl⟩

end IngestQueue

end LogLess
