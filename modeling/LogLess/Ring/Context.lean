import LogLess.Lib.Assoc
import LogLess.Lib.Decimal
import LogLess.Store.Catalog

/-!
# The ring of context lines

Lines are kept in memory under the strongest key that correlates them, so that an error can
be forwarded with the lines that led to it. `observe` records a line; `capture` answers an
error with a window of context, or says why it is withheld: nothing is buffered, an identical
flow was seen within the dedupe window, or a budget of windows for the minute is spent.

`DefaultHasher` is a parameter: what it makes of a correlation key, and of the template ids
of a flow. Times are in nanoseconds.
-/

namespace LogLess.Ring

/-! ## Correlation -/

inductive KeyTier where
  | trace
  | request
  | thread
  | service
deriving DecidableEq

structure CorrelationKey where
  tier : KeyTier
  value : Text
deriving DecidableEq

/-- The first attribute of this name that is a string or an integer. -/
def attrText (record : LogRecord) (name : String) : Option Text :=
  record.attributes.findSome? fun a =>
    if a.key = name.toList then
      match a.value with
      | .str s => some s
      | .i64 i => some (Decimal.ofInt i)
      | _ => none
    else none

/-- The strongest key there is. -/
def correlationKey (record : LogRecord) : CorrelationKey :=
  let service := record.service.getD []
  let host := (attrText record "host").getD []
  match record.traceId with
  | some trace => ⟨.trace, Store.simple trace.1⟩
  | none =>
    match ["request_id", "req_id", "session_id", "correlation_id"].findSome? (attrText record) with
    | some id => ⟨.request, service ++ '/' :: id⟩
    | none =>
      match attrText record "pid", attrText record "thread" with
      | some pid, some thread => ⟨.thread, host ++ '/' :: (pid ++ '/' :: thread)⟩
      | _, _ => ⟨.service, host ++ '/' :: service⟩

/-! ## The ring -/

structure Config where
  shards : ℕ
  maxBytes : ℕ
  maxLinesPerKey : ℕ
  contextAge : ℕ
  maxContextLines : ℕ
  /-- Windows allowed per service and template in a minute. -/
  windowsPerMinute : ℕ
  /-- Windows allowed in a minute over all shapes. -/
  maxWindowsPerMinute : ℕ
  dedupeWindow : ℕ

/-- A `Duration` as nanoseconds in an `u64`. -/
def asU64 (nanos : ℕ) : ℕ := nanos % 2 ^ 64

structure Entry where
  timestampUnixNano : ℕ
  severity : UInt8
  templateId : Option ℕ
  body : Text
deriving DecidableEq

def Entry.bytes (e : Entry) : ℕ := e.body.len + 96

structure Shard where
  keys : List (CorrelationKey × List Entry)
  /-- The keys in the order they came, the oldest first. -/
  order : List CorrelationKey
  bytes : ℕ
deriving DecidableEq

def Shard.empty : Shard := ⟨[], [], 0⟩

structure Stats where
  linesBuffered : ℕ
  linesEvicted : ℕ
  windowsEmitted : ℕ
  windowsDeduped : ℕ
  windowsRateLimited : ℕ
  bytesHeld : ℕ
deriving DecidableEq

end Ring

structure Ring where
  config : Ring.Config
  shards : List Ring.Shard
  /-- Service and template to the start of a minute and the windows emitted in it. -/
  budgets : List ((Text × ℕ) × (ℕ × ℕ))
  globalBudget : ℕ × ℕ
  /-- Flow hash to when it was last opened and what was suppressed since. -/
  recentFlows : List (ℕ × (ℕ × ℕ))
  stats : Ring.Stats

namespace Ring

/-- What `DefaultHasher` makes of a correlation key, and of the template ids of the context
lines and of the error. -/
structure Hasher where
  key : CorrelationKey → ℕ
  flow : List (Option ℕ) → Option ℕ → ℕ

def new (config : Config) : Ring where
  config := config
  shards := List.replicate (max config.shards 1) .empty
  budgets := []
  globalBudget := (0, 0)
  recentFlows := []
  stats := ⟨0, 0, 0, 0, 0, 0⟩

variable (hasher : Hasher) (r : Ring)

def shardFor (key : CorrelationKey) : ℕ := hasher.key key % r.shards.length

def shardBudget : ℕ := r.config.maxBytes / max r.shards.length 1

/-! ## `observe` -/

/-- The oldest lines of a key leave while there are more than `maxLines`: what stays, and what
is left of the shard's bytes. -/
def capLines (maxLines : ℕ) : List Entry → ℕ → List Entry × ℕ
  | [], bytes => ([], bytes)
  | old :: queue, bytes =>
    if maxLines < queue.length + 1 then capLines maxLines queue (bytes - old.bytes)
    else (old :: queue, bytes)

/-- The oldest keys leave whole while the shard is over its budget, with the number of lines
that leave. -/
def evictKeys (budget : ℕ) : List CorrelationKey → List (CorrelationKey × List Entry) → ℕ →
    Shard × ℕ
  | [], keys, bytes => (⟨keys, [], bytes⟩, 0)
  | oldest :: order, keys, bytes =>
    if budget < bytes then
      let queue := (Assoc.get keys oldest).getD []
      let (shard, evicted) := evictKeys budget order (Assoc.erase keys oldest)
        (queue.foldl (fun bytes e => bytes - e.bytes) bytes)
      (shard, queue.length + evicted)
    else (⟨keys, oldest :: order, bytes⟩, 0)

/-- A line recorded in a shard, with the number of lines that leave. -/
def Shard.observe (s : Shard) (maxLines budget : ℕ) (key : CorrelationKey) (entry : Entry) :
    Shard × ℕ :=
  let order := if (Assoc.get s.keys key).isSome then s.order else s.order ++ [key]
  let queue := (Assoc.get s.keys key).getD [] ++ [entry]
  let (kept, bytes) := capLines maxLines queue (s.bytes + entry.bytes)
  let (shard, evicted) := evictKeys budget order (Assoc.insert s.keys key kept) bytes
  (shard, queue.length - kept.length + evicted)

def observe (record : LogRecord) : Ring :=
  let key := correlationKey record
  let entry : Entry :=
    ⟨record.observedUnixNano, record.severity.num, record.templateId, record.body⟩
  let i := r.shardFor hasher key
  let (shard, evicted) := (r.shards.getD i .empty).observe r.config.maxLinesPerKey r.shardBudget
    key entry
  let shards := r.shards.set i shard
  { r with
    shards := shards
    stats :=
      { r.stats with
        linesBuffered := r.stats.linesBuffered + 1
        linesEvicted := r.stats.linesEvicted + evicted
        bytesHeld := (shards.map Shard.bytes).sum } }

/-! ## `capture` -/

structure ContextLine where
  timestampUnixNano : ℕ
  severity : UInt8
  templateId : Option ℕ
  body : Text
deriving DecidableEq

/-- An error and the lines that led to it. -/
structure ContextWindow where
  error : ContextLine
  context : List ContextLine
  keyTier : KeyTier
  flowHash : ℕ
  errorTemplateId : Option ℕ
  errorTemplateFingerprint : Option ℕ
  service : Option Text
  /-- Occurrences collapsed into this window since it was first emitted. -/
  suppressed : ℕ
deriving DecidableEq

inductive Suppressed where
  /-- An identical flow was forwarded recently. -/
  | duplicateFlow
  | rateLimited
  /-- Nothing correlated was buffered. -/
  | noContext
deriving DecidableEq

inductive Capture where
  | window (w : ContextWindow)
  | contextSuppressed (reason : Suppressed) (flowHash : Option ℕ)
deriving DecidableEq

/-- The lines of an error's key that are young enough, but for the error itself: the newest of
them. -/
def contextOf (queue : List Entry) (error : LogRecord) : List ContextLine :=
  let cutoff := error.observedUnixNano - asU64 r.config.contextAge
  let young := queue.filter fun e => cutoff ≤ e.timestampUnixNano
  let others := young.filter fun e =>
    e.body ≠ error.body ∨ e.timestampUnixNano ≠ error.observedUnixNano
  ((others.reverse.take r.config.maxContextLines).map fun e =>
    ⟨e.timestampUnixNano, e.severity, e.templateId, e.body⟩).reverse

/-- The context of an error, if there is any. -/
def context (error : LogRecord) : Option (List ContextLine) :=
  let key := correlationKey error
  match Assoc.get (r.shards.getD (r.shardFor hasher key) .empty).keys key with
  | none => none
  | some queue =>
    let context := r.contextOf queue error
    if context = [] then none else some context

def flowHash (context : List ContextLine) (errorTemplate : Option ℕ) : ℕ :=
  hasher.flow (context.map ContextLine.templateId) errorTemplate

/-- The table of flows is not kept longer than this. -/
def maxFlows : ℕ := 10000

/-- `prune_flows`. -/
def pruneFlows (now : ℕ) : Ring :=
  if r.recentFlows.length < maxFlows then r
  else
    let live := r.recentFlows.filter fun f => now - f.2.1 < asU64 r.config.dedupeWindow
    { r with recentFlows := if maxFlows ≤ live.length then [] else live }

/-- A flow that is seen: `none` if it is a duplicate, or else what was suppressed since it was
last opened. -/
def openFlow (flow now : ℕ) : Ring × Option ℕ :=
  match Assoc.get r.recentFlows flow with
  | some (last, count) =>
    if now - last < asU64 r.config.dedupeWindow then
      ({ r with
        recentFlows := Assoc.insert r.recentFlows flow (last, count + 1)
        stats := { r.stats with windowsDeduped := r.stats.windowsDeduped + 1 } }, none)
    else ({ r with recentFlows := Assoc.insert r.recentFlows flow (now, 0) }, some count)
  | none =>
    let r := r.pruneFlows now
    ({ r with recentFlows := Assoc.insert r.recentFlows flow (now, 0) }, some 0)

def minuteNanos : ℕ := 60 * 10 ^ 9

/-- A budget for the minute, anew if its minute is over. -/
def refresh (now : ℕ) (budget : ℕ × ℕ) : ℕ × ℕ :=
  if minuteNanos ≤ now - budget.1 then (now, 0) else budget

/-- The two limiters: first the ceiling over all shapes, then the budget of this one. -/
def limit (now : ℕ) (shape : Text × ℕ) : Ring × Bool :=
  let r := { r with globalBudget := refresh now r.globalBudget }
  let limited := { r.stats with windowsRateLimited := r.stats.windowsRateLimited + 1 }
  if r.config.maxWindowsPerMinute ≤ r.globalBudget.2 then ({ r with stats := limited }, false)
  else
    let budget := refresh now ((Assoc.get r.budgets shape).getD (now, 0))
    if r.config.windowsPerMinute ≤ budget.2 then
      ({ r with budgets := Assoc.insert r.budgets shape budget, stats := limited }, false)
    else
      ({ r with
        budgets := Assoc.insert r.budgets shape (budget.1, budget.2 + 1)
        globalBudget := (r.globalBudget.1, r.globalBudget.2 + 1)
        stats := { r.stats with windowsEmitted := r.stats.windowsEmitted + 1 } }, true)

/-- What a budget is kept for. -/
def shapeOf (error : LogRecord) : Text × ℕ := (error.service.getD [], error.templateId.getD 0)

def windowOf (error : LogRecord) (context : List ContextLine) (flow suppressed : ℕ) :
    ContextWindow where
  error := ⟨error.observedUnixNano, error.severity.num, error.templateId, error.body⟩
  context := context
  keyTier := (correlationKey error).tier
  flowHash := flow
  errorTemplateId := error.templateId
  errorTemplateFingerprint := none
  service := error.service
  suppressed := suppressed

def capture (error : LogRecord) : Ring × Capture :=
  match r.context hasher error with
  | none => (r, .contextSuppressed .noContext none)
  | some context =>
    let flow := flowHash hasher context error.templateId
    match r.openFlow flow error.observedUnixNano with
    | (r, none) => (r, .contextSuppressed .duplicateFlow (some flow))
    | (r, some suppressed) =>
      match r.limit error.observedUnixNano (shapeOf error) with
      | (r, false) => (r, .contextSuppressed .rateLimited (some flow))
      | (r, true) => (r, .window (windowOf error context flow suppressed))

end Ring

end LogLess
