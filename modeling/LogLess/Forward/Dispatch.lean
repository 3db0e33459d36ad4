import LogLess.Model
import Mathlib.Data.Char
import Mathlib.Data.List.Sort
import Mathlib.Data.List.Lex
import Mathlib.Data.Prod.Lex

/-!
# Forwarding to the vendors

Each error goes to every destination, shaped as the destination needs it. One that
aggregates gets the errors whose context was withheld as rollups: the aggregator counts
them by service and template, and a flush sends one aggregate for each count.

A body is modelled by the value it is rendered from, and the answers of a vendor are a
sequence that its transport is asked for one after the other.
-/

namespace LogLess.Forward

/-! ## Destinations -/

inductive Destination where
  | sentry (dsn : Text)
  | splunkHec (url token : Text) (aggregate : Bool)
  | logless (url : Text)
deriving DecidableEq

inductive ForwardError where
  | rejected (destination : Text) (status : ℕ)
  | transport (destination message : Text)
deriving DecidableEq

structure Dsn where
  origin : Text
  key : Text
  project : Text
deriving DecidableEq

/-- `parse_dsn`: `https://<key>@<host>/<project>`. -/
def parseDsn (dsn : Text) : Option Dsn := do
  let (scheme, rest) ← Text.splitOnceAt "://".toList dsn
  let (key, hostAndPath) ← Text.splitOnce '@' rest
  let (host, project) ← Text.rsplitOnce '/' hostAndPath
  if key.isEmpty || host.isEmpty || project.isEmpty then none
  else some ⟨scheme ++ "://".toList ++ host, key, project⟩

namespace Destination

/-- Whether repeated errors are rolled up rather than sent one by one. -/
def aggregates : Destination → Bool
  | splunkHec _ _ aggregate => aggregate
  | _ => false

def name : Destination → Text
  | sentry _ => "sentry".toList
  | splunkHec _ _ _ => "splunk".toList
  | logless _ => "logless".toList

/-- Endpoint URL and headers for a POST. -/
def request : Destination → Except ForwardError (Text × List (Text × Text))
  | sentry dsn =>
    match parseDsn dsn with
    | none => .error (.transport "sentry".toList ("malformed DSN: ".toList ++ dsn))
    | some parsed =>
      .ok (parsed.origin ++ "/api/".toList ++ parsed.project ++ "/envelope/".toList,
        [("Content-Type".toList, "application/x-sentry-envelope".toList),
          ("X-Sentry-Auth".toList,
            "Sentry sentry_version=7, sentry_client=logless/0.1, sentry_key=".toList
              ++ parsed.key)])
  | splunkHec url token _ =>
    .ok (Text.trimEndMatches (· == '/') url ++ "/services/collector/event".toList,
      [("Authorization".toList, "Splunk ".toList ++ token),
        ("Content-Type".toList, "application/json".toList)])
  | logless _ =>
    .error (.transport "logless".toList
      "a log-less peer is fed by the streaming sender, not the curated forwarders".toList)

end Destination

/-! ## What is forwarded -/

structure ContextLine where
  timestampUnixNano : ℕ
  body : Text
deriving DecidableEq

structure ContextWindow where
  error : ContextLine
  context : List ContextLine
  errorTemplateId : Option ℕ
  service : Option Text
deriving DecidableEq

structure Outbound where
  window : ContextWindow
  /-- False when the ring withheld the context. -/
  hadContext : Bool
  templateText : Text
deriving DecidableEq

/-- An error handled without context, with the time it was handled at. -/
structure Recorded where
  time : ℕ
  outbound : Outbound
deriving DecidableEq

structure Rollup where
  service : Text
  templateId : ℕ
  templateText : Text
  count : ℕ
  firstSeenUnixNano : ℕ
  lastSeenUnixNano : ℕ
  exampleBody : Text
  /-- The errors the rollup has counted. The code keeps no such list: it is what the
  aggregate stands for. -/
  errors : List Recorded
deriving DecidableEq

inductive Body where
  | event (window : ContextWindow)
  | aggregate (rollup : Rollup)
deriving DecidableEq

/-! ## The aggregator -/

structure Aggregator where
  rollups : List Rollup

namespace Rollup

def key (r : Rollup) : Text ×ₗ ℕ := toLex (r.service, r.templateId)

/-- One more error in an entry of the aggregator. -/
def hit (r : Rollup) (ts : ℕ) (e : Recorded) : Rollup :=
  { r with
    count := r.count + 1
    lastSeenUnixNano := max r.lastSeenUnixNano ts
    firstSeenUnixNano := min r.firstSeenUnixNano ts
    errors := r.errors ++ [e] }

end Rollup

namespace Aggregator

/-- The entry that is found, or `new` when there is none, with one more error. -/
def enter (new : Rollup) (ts : ℕ) (e : Recorded) : List Rollup → List Rollup
  | [] => [new.hit ts e]
  | r :: rs => if r.key = new.key then r.hit ts e :: rs else r :: enter new ts e rs

def record (a : Aggregator) (service : Text) (templateId : ℕ) (templateText body : Text)
    (ts : ℕ) (e : Recorded) : Aggregator :=
  ⟨enter ⟨service, templateId, templateText, 0, ts, ts, body, []⟩ ts e a.rollups⟩

/-- The rollups in the order of the map's keys. -/
def drain (a : Aggregator) : List Rollup × Aggregator :=
  (a.rollups.insertionSort fun r s => r.key ≤ s.key, ⟨[]⟩)

end Aggregator

/-! ## Sending -/

/-- An HTTP status or the text of a transport failure. -/
abbrev Answer := Except Text ℕ

structure Post where
  url : Text
  headers : List (Text × Text)
  body : Body
deriving DecidableEq

/-- A vendor: what it will answer, and the posts it has answered. -/
structure Transport where
  answers : ℕ → Answer
  log : List (Post × Answer)

def Transport.post (t : Transport) (p : Post) : Answer × Transport :=
  let answer := t.answers t.log.length
  (answer, { t with log := t.log ++ [(p, answer)] })

structure ForwardStats where
  eventsSent : ℕ
  aggregatesSent : ℕ
  failures : ℕ
  retries : ℕ
deriving DecidableEq

structure Forwarder where
  destination : Destination
  transport : Transport
  maxRetries : ℕ
  stats : ForwardStats

/-- `(200..300).contains(&status)`. -/
def accepted (status : ℕ) : Bool := 200 ≤ status && status < 300

/-- A 4xx other than 429, which no retry will change. -/
def refused (status : ℕ) : Bool := 400 ≤ status && status < 500 && status != 429

namespace Forwarder

def new (destination : Destination) (transport : Transport) : Forwarder :=
  ⟨destination, transport, 2, ⟨0, 0, 0, 0⟩⟩

def failed (f : Forwarder) (e : ForwardError) : Except ForwardError Unit × Forwarder :=
  (.error e, { f with stats := { f.stats with failures := f.stats.failures + 1 } })

def again (f : Forwarder) : Forwarder :=
  { f with stats := { f.stats with retries := f.stats.retries + 1 } }

/-- The loop of `post`, with the number of retries that are left. -/
def attempt (p : Post) : ℕ → Forwarder → Except ForwardError Unit × Forwarder
  | left, f =>
    match f.transport.post p with
    | (.ok status, transport) =>
      let f := { f with transport := transport }
      if accepted status then (.ok (), f)
      else if refused status then f.failed (.rejected f.destination.name status)
      else
        match left with
        | 0 => f.failed (.rejected f.destination.name status)
        | left + 1 => attempt p left f.again
    | (.error message, transport) =>
      let f := { f with transport := transport }
      match left with
      | 0 => f.failed (.transport f.destination.name message)
      | left + 1 => attempt p left f.again

def post (f : Forwarder) (body : Body) : Except ForwardError Unit × Forwarder :=
  match f.destination.request with
  | .error e => (.error e, f)
  | .ok (url, headers) => attempt ⟨url, headers, body⟩ f.maxRetries f

/-- What `send_window` and `send_error_only` share: the body is posted and counted. -/
def sendEvent (f : Forwarder) (window : ContextWindow) : Except ForwardError Unit × Forwarder :=
  match f.destination with
  | .logless _ => (.ok (), f)
  | _ =>
    match f.post (.event window) with
    | (.ok (), f) =>
      (.ok (), { f with stats := { f.stats with eventsSent := f.stats.eventsSent + 1 } })
    | r => r

def sendWindow (f : Forwarder) (window : ContextWindow) : Except ForwardError Unit × Forwarder :=
  f.sendEvent window

def sendErrorOnly (f : Forwarder) (window : ContextWindow) :
    Except ForwardError Unit × Forwarder :=
  f.sendEvent { window with context := [] }

def sendAggregate (f : Forwarder) (rollup : Rollup) : Except ForwardError Unit × Forwarder :=
  match f.destination with
  | .logless _ => (.ok (), f)
  | _ =>
    match f.post (.aggregate rollup) with
    | (.ok (), f) =>
      (.ok (), { f with stats := { f.stats with aggregatesSent := f.stats.aggregatesSent + 1 } })
    | r => r

end Forwarder

/-! ## Dispatch -/

structure DispatchStats where
  handled : ℕ
  aggregated : ℕ
  flushes : ℕ
deriving DecidableEq

structure Dispatch where
  forwarders : List Forwarder
  aggregator : Aggregator
  flushInterval : ℕ
  lastFlush : Option ℕ
  stats : DispatchStats

namespace Dispatch

def new (forwarders : List Forwarder) (flushInterval : ℕ) : Dispatch :=
  ⟨forwarders, ⟨[]⟩, flushInterval, none, ⟨0, 0, 0⟩⟩

/-- The body of `handle`'s loop: what one forwarder does with an error. The result of a
send is only logged. -/
def handleOne (now : ℕ) (o : Outbound) (f : Forwarder) (a : Aggregator) (stats : DispatchStats) :
    Forwarder × Aggregator × DispatchStats :=
  if o.hadContext then ((f.sendWindow o.window).2, a, stats)
  else if f.destination.aggregates then
    (f, a.record (o.window.service.getD []) (o.window.errorTemplateId.getD 0) o.templateText
        o.window.error.body o.window.error.timestampUnixNano ⟨now, o⟩,
      { stats with aggregated := stats.aggregated + 1 })
  else ((f.sendErrorOnly o.window).2, a, stats)

def handleAll (now : ℕ) (o : Outbound) :
    List Forwarder → Aggregator → DispatchStats → List Forwarder × Aggregator × DispatchStats
  | [], a, stats => ([], a, stats)
  | f :: fs, a, stats =>
    let (f, a, stats) := handleOne now o f a stats
    let (fs, a, stats) := handleAll now o fs a stats
    (f :: fs, a, stats)

def handle (d : Dispatch) (now : ℕ) (o : Outbound) : Dispatch :=
  let (forwarders, aggregator, stats) :=
    handleAll now o d.forwarders d.aggregator { d.stats with handled := d.stats.handled + 1 }
  { d with forwarders := forwarders, aggregator := aggregator, stats := stats }

def due (d : Dispatch) (now : ℕ) (force : Bool) : Bool :=
  match d.lastFlush with
  | none => force
  | some last => force || d.flushInterval ≤ now - last

/-- What one forwarder does with the drained rollups. -/
def flushOne (rollups : List Rollup) (f : Forwarder) : Forwarder :=
  if f.destination.aggregates then rollups.foldl (fun f r => (f.sendAggregate r).2) f else f

def flushIfDue (d : Dispatch) (now : ℕ) (force : Bool) : Dispatch :=
  if d.due now force then
    let d := { d with lastFlush := some now }
    if d.aggregator.rollups.isEmpty then d
    else
      let (rollups, aggregator) := d.aggregator.drain
      { d with
        aggregator := aggregator
        stats := { d.stats with flushes := d.stats.flushes + 1 }
        forwarders := d.forwarders.map (flushOne rollups) }
  else d

end Dispatch

end LogLess.Forward
