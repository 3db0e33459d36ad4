import LogLess.Config
import LogLess.Lib.Capped
import LogLess.Lib.Decimal
import LogLess.Lib.Float64
import LogLess.Lib.Text

/-!
# What the sender watches for

The detectors of `Signals`: what one record shows at once, and what a bucket of ten seconds shows
when it is closed. Floating point numbers are any type with the operations the detectors use, and no
law of them is assumed. A hash map is iterated in an order that may be another one for every bucket.
-/

namespace LogLess.SyncSignals

open Assoc (get)
open Capped (trackAll sweep)

/-- The numbers of the detectors. `lt` and `le` are the comparisons, `parse` reads the text of a
number and `fixed` writes one with a number of decimals. -/
class Arith (ν : Type) extends Add ν, Sub ν, Mul ν, Div ν, OfScientific ν where
  ofNat : ℕ → ν
  sqrt : ν → ν
  abs : ν → ν
  lt : ν → ν → Bool
  le : ν → ν → Bool
  isFinite : ν → Bool
  isWhole : ν → Bool
  parse : Text → Option ν
  fixed : ℕ → ν → Text

/-- Exact numbers, but a root has six decimals. -/
instance : Arith ℚ where
  ofNat n := n
  sqrt q := Nat.sqrt ⌊q * 10 ^ 12⌋.toNat / 10 ^ 6
  abs q := |q|
  lt a b := decide (a < b)
  le a b := decide (a ≤ b)
  isFinite _ := true
  isWhole q := decide (q.den = 1)
  parse t :=
    match Float64.parse t with
    | some (.finite q) => some q
    | _ => none
  fixed places q :=
    let digits := (Float64.roundEven (|q| * 10 ^ places)).toNat
    let whole := Decimal.ofNat (digits / 10 ^ places)
    let fraction := if places = 0 then [] else '.' :: Decimal.padded places (digits % 10 ^ places)
    if q < 0 then '-' :: (whole ++ fraction) else whole ++ fraction

open Arith (lt le fixed)

def bucketMs : ℕ := 10000
def warmupBuckets : ℕ := 6
def driftWarmupBuckets : ℕ := 12
def maxKeys : ℕ := 10000
def maxPerBucket : ℕ := 20000
def maxTraces : ℕ := 20000
def maxSet : ℕ := 200000
def learnMs : ℕ := 60000
def silenceBuckets : ℕ := 6
def shareMinTotal : ℕ := 20
def shareMinErrors : ℕ := 5
def driftMinValues : ℕ := 10
def driftSlots : ℕ := 3
def forgetAfterQuiet : ℕ := 360
def error : UInt8 := 17
def warn : UInt8 := 13

/-- A template in a service. -/
abbrev Key := Option Text × ℕ

/-- A number of a template, by its place in the line. -/
abbrev NumberKey := Key × ℕ

section

variable (ν : Type) [Arith ν]

def templateRateMin : ν := 30.0
def silenceMinMean : ν := 3.0
def serviceSilenceMinMean : ν := 5.0

/-- A running mean and variance of a measurement for each bucket. -/
structure Baseline where
  mean : ν
  var : ν
  n : ℕ

structure Tracked where
  base : Baseline ν
  /-- Consecutive empty buckets. -/
  quiet : ℕ
  flagged : Bool

structure Bucket where
  template : List (Key × ℕ)
  /-- The worst severity each template had. -/
  templateSeverity : List (Key × UInt8)
  serviceTotal : List (Option Text × ℕ)
  serviceErrors : List (Option Text × ℕ)
  /-- The sum and the count of a number in the body. -/
  numbers : List (NumberKey × (ν × ℕ))

structure Signals where
  bucketStartMs : ℕ
  bucket : Bucket ν
  templates : List (Key × Tracked ν)
  services : List (Option Text × Tracked ν)
  share : List (Option Text × Baseline ν)
  drift : List (NumberKey × Baseline ν)
  pairs : List Key
  pairsLearnUntilMs : ℕ
  bigrams : List (Option Text × ℕ × ℕ)
  bigramsLearnUntilMs : ℕ
  traces : List (ByteArr 16 × ℕ)
  traceOrder : List (ByteArr 16)

/-- What a detector noticed, with the numbers its text gives. -/
inductive Kind where
  | templateRate (template count : ℕ) (mean : ν)
  | silentTemplate (template quiet : ℕ) (mean : ν)
  | silentService (quiet : ℕ) (mean : ν)
  | newPair (template : ℕ)
  | errorShare (errors total : ℕ) (share mean : ν)
  | paramDrift (template slot : ℕ) (value mean : ν)
  | flow (prev template : ℕ)

structure Finding where
  service : Option Text
  kind : Kind ν
  /-- Whether to send the lead-up and raise the service to full detail. -/
  boost : Bool

end

variable {ν : Type} [Arith ν]

/-! ## Texts -/

def Kind.text : Kind ν → Text
  | templateRate .. => "template_rate".toList
  | silentTemplate .. => "silence".toList
  | silentService .. => "silence".toList
  | newPair .. => "new_pair".toList
  | errorShare .. => "error_share".toList
  | paramDrift .. => "param_drift".toList
  | flow .. => "flow".toList

def name (service : Option Text) : Text := service.getD "(no service)".toList

def short (v : ν) : Text :=
  if le 100.0 (Arith.abs v) || Arith.isWhole v then fixed 0 v else fixed 2 v

def Finding.detail (f : Finding ν) : Text :=
  let service := name f.service
  let seconds := Decimal.ofNat (bucketMs / 1000)
  match f.kind with
  | .templateRate template count mean =>
    "template ".toList ++ Decimal.ofNat template ++ " in ".toList ++ service ++ ": ".toList
      ++ Decimal.ofNat count ++ " in ".toList ++ seconds ++ " s, against about ".toList
      ++ fixed 0 mean ++ " for a bucket this long".toList
  | .silentTemplate template quiet mean =>
    "template ".toList ++ Decimal.ofNat template ++ " in ".toList ++ service
      ++ " has not appeared for ".toList ++ Decimal.ofNat (quiet * bucketMs / 1000)
      ++ " s; it normally appears about ".toList ++ fixed 0 mean ++ " times every ".toList
      ++ seconds ++ " s".toList
  | .silentService quiet mean =>
    service ++ " has sent nothing for ".toList ++ Decimal.ofNat (quiet * bucketMs / 1000)
      ++ " s; it normally sends about ".toList ++ fixed 0 mean ++ " records every ".toList
      ++ seconds ++ " s".toList
  | .newPair template =>
    "template ".toList ++ Decimal.ofNat template ++ " appeared in ".toList ++ service
      ++ " for the first time".toList
  | .errorShare errors total share mean =>
    Decimal.ofNat errors ++ " of ".toList ++ Decimal.ofNat total ++ " records in ".toList ++ seconds
      ++ " s were errors (".toList ++ fixed 0 (share * 100.0) ++ "%), against about ".toList
      ++ fixed 1 (mean * 100.0) ++ "% normally".toList
  | .paramDrift template slot value mean =>
    "a number in template ".toList ++ Decimal.ofNat template ++ " in ".toList ++ service
      ++ " (value ".toList ++ Decimal.ofNat (slot + 1) ++ " of the line) averaged ".toList
      ++ short value ++ " over ".toList ++ seconds ++ " s, against about ".toList ++ short mean
      ++ " normally".toList
  | .flow prev template =>
    "a call sequence never seen before in ".toList ++ service ++ ": template ".toList
      ++ Decimal.ofNat prev ++ " then ".toList ++ Decimal.ofNat template

/-- The numbers in a log line, in order, without their units. -/
def numbers (body : Text) : List ν :=
  ((Text.splitWhitespace body).take 64).filterMap fun token =>
    let value := ((Text.rsplitOnce '=' token).map Prod.snd).getD token
    let value := Text.trimEndMatches (fun c => [')', ']', ',', ';', '.', '"', '\''].contains c)
      (value.dropWhile fun c => ['(', '[', '"', '\''].contains c)
    let digits := Text.trimEndMatches (fun c => c.isAlpha || c == '%') value
    if digits.head?.any fun c => c.isDigit || c == '-' then
      (Arith.parse digits).filter Arith.isFinite
    else none

/-! ## Baselines -/

namespace Baseline

def default : Baseline ν := ⟨0.0, 0.0, 0⟩

def sd (b : Baseline ν) : ν := Arith.sqrt b.var

/-- A baseline that is old enough moves slowly after a deviation. -/
def update (b : Baseline ν) (x : ν) (slow : Bool) : Baseline ν :=
  let alpha : ν := if slow && decide (warmupBuckets ≤ b.n) then 0.02 else 0.2
  if b.n = 0 then ⟨x, 0.0, 1⟩
  else
    let d := x - b.mean
    ⟨b.mean + alpha * d, (1.0 - alpha) * (b.var + alpha * d * d), b.n + 1⟩

end Baseline

def Tracked.default : Tracked ν := ⟨.default, 0, false⟩

def Bucket.empty : Bucket ν := ⟨[], [], [], [], []⟩

/-! ## One record -/

/-- `entry(_).or_insert(0) += 1`. -/
def bump {κ : Type} [DecidableEq κ] (counts : List (κ × ℕ)) (k : κ) : List (κ × ℕ) :=
  Assoc.insert counts k ((get counts k).getD 0 + 1)

/-- There is room in the bucket for the key, or it is there already. -/
def admits {κ : Type} [DecidableEq κ] (counts : List (κ × ℕ)) (k : κ) : Bool :=
  decide (counts.length < maxPerBucket) || (get counts k).isSome

namespace Bucket

def countService (b : Bucket ν) (service : Option Text) (severity : UInt8) : Bucket ν :=
  if admits b.serviceTotal service then
    { b with
      serviceTotal := bump b.serviceTotal service
      serviceErrors := if error ≤ severity then bump b.serviceErrors service else b.serviceErrors }
  else b

/-- The number in one place of the line. -/
def addNumber (key : Key) (table : List (NumberKey × (ν × ℕ))) (e : ℕ × ν) :
    List (NumberKey × (ν × ℕ)) :=
  let acc := (get table (key, e.1)).getD (0.0, 0)
  Assoc.insert table (key, e.1) (acc.1 + e.2, acc.2 + 1)

def countTemplate (b : Bucket ν) (key : Key) (severity : UInt8) (body : Text) : Bucket ν :=
  if admits b.template key then
    { b with
      template := bump b.template key
      templateSeverity :=
        Assoc.insert b.templateSeverity key (max ((get b.templateSeverity key).getD 0) severity)
      numbers :=
        ((List.range driftSlots).zip (SyncSignals.numbers body)).foldl (addNumber key) b.numbers }
  else b

end Bucket

namespace Signals

/-- `knownPairs` are those of the catalog. With none, the first minute learns them. -/
def new (nowMs : ℕ) (knownPairs : List Key) : Signals ν :=
  let pairs := (knownPairs.take maxSet).dedup
  { bucketStartMs := nowMs - nowMs % bucketMs
    bucket := .empty
    templates := []
    services := []
    share := []
    drift := []
    pairs := pairs
    pairsLearnUntilMs := if pairs.isEmpty then nowMs + learnMs else nowMs
    bigrams := []
    bigramsLearnUntilMs := nowMs + learnMs
    traces := []
    traceOrder := [] }

/-- A set that is full remembers nothing new. -/
def remember {κ : Type} (set : List κ) (k : κ) : List κ :=
  if set.length < maxSet then set ++ [k] else set

/-- What is new is reported unless it is still learned, or is reported as a new template. -/
def report (nowMs learnUntilMs : ℕ) (firstEver : Bool) (service : Option Text) (kind : Kind ν) :
    List (Finding ν) :=
  if !firstEver ∧ learnUntilMs ≤ nowMs then [⟨service, kind, true⟩] else []

def observePair (s : Signals ν) (nowMs : ℕ) (key : Key) (firstEver : Bool) :
    Signals ν × List (Finding ν) :=
  if key ∈ s.pairs then (s, [])
  else ({ s with pairs := remember s.pairs key },
    report nowMs s.pairsLearnUntilMs firstEver key.1 (.newPair key.2))

/-- A new trace goes to the end of the queue, and the first of too many goes. -/
def enqueue (s : Signals ν) (trace : ByteArr 16) : Signals ν :=
  match s.traceOrder ++ [trace] with
  | old :: rest =>
    if maxTraces < rest.length + 1 then
      { s with traces := Assoc.erase s.traces old, traceOrder := rest }
    else { s with traceOrder := old :: rest }
  | [] => s

/-- The template of the trace before this one. -/
def observeTrace (s : Signals ν) (trace : ByteArr 16) (template : ℕ) : Signals ν :=
  let inserted := { s with traces := Assoc.insert s.traces trace template }
  if (get s.traces trace).isNone then inserted.enqueue trace else inserted

/-- Two templates in a trace that follow each other. -/
def previous (s : Signals ν) (trace : ByteArr 16) (template : ℕ) : Option ℕ :=
  (get s.traces trace).filter fun p => p ≠ template

def observeFlow (s : Signals ν) (nowMs : ℕ) (key : Key) (prev : Option ℕ) (firstEver : Bool) :
    Signals ν × List (Finding ν) :=
  match prev with
  | none => (s, [])
  | some prev =>
    let bigram := (key.1, prev, key.2)
    if bigram ∈ s.bigrams then (s, [])
    else ({ s with bigrams := remember s.bigrams bigram },
      report nowMs s.bigramsLearnUntilMs firstEver key.1 (.flow prev key.2))

def observe (s : Signals ν) (nowMs : ℕ) (record : LogRecord) (firstEver : Bool) :
    Signals ν × List (Finding ν) :=
  let severity := record.severity.num
  let s := { s with bucket := s.bucket.countService record.service severity }
  match record.templateId with
  | none => (s, [])
  | some template =>
    let key : Key := (record.service, template)
    let s := { s with bucket := s.bucket.countTemplate key severity record.body }
    let (s, pair) := s.observePair nowMs key firstEver
    match record.traceId with
    | none => (s, pair)
    | some trace =>
      let prev := s.previous trace template
      let (s, flow) := (s.observeTrace trace template).observeFlow nowMs key prev firstEver
      (s, pair ++ flow)

end Signals

/-! ## One bucket -/

/-- An order in which the entries of a map are visited. -/
structure Shuffle (α : Type) where
  entries : List α → List α
  perm : ∀ l, (entries l).Perm l

/-- The order of the list. -/
def Shuffle.same {α : Type} : Shuffle α := ⟨id, List.Perm.refl⟩

variable (ν) in
/-- The orders of the maps that are iterated while a bucket is closed. -/
structure Order where
  totals : Shuffle (Option Text × ℕ)
  services : Shuffle (Option Text × Tracked ν)
  counts : Shuffle (Key × ℕ)
  templates : Shuffle (Key × Tracked ν)
  numbers : Shuffle (NumberKey × (ν × ℕ))

/-- A bucket without the key: the baseline of what was regular is kept, and it is reported once it
has been silent for long enough. -/
def age (minMean : ν) (mayReport : Bool) (finding : ℕ → ν → Finding ν) (t : Tracked ν) :
    Tracked ν × List (Finding ν) :=
  let quiet := t.quiet + 1
  let base := if lt t.base.mean minMean then t.base.update 0.0 false else t.base
  if le minMean base.mean && decide (silenceBuckets ≤ quiet) && !t.flagged && mayReport then
    (⟨base, quiet, true⟩, [finding quiet base.mean])
  else (⟨base, quiet, t.flagged⟩, [])

/-- It was quiet for a long time at a low rate. -/
def forgettable (minMean : ν) (t : Tracked ν) : Bool :=
  decide (forgetAfterQuiet ≤ t.quiet) && lt t.base.mean minMean

/-- A table of what is regular, once a bucket is closed: the entries of what it counted, then those
of what it did not count. -/
def closeTracked {κ : Type} [DecidableEq κ] (counts : List (κ × ℕ)) (visitCounts : Shuffle (κ × ℕ))
    (visit : Shuffle (κ × Tracked ν)) (saw : κ → ℕ → Tracked ν → Tracked ν × List (Finding ν))
    (missed : κ → Tracked ν → Tracked ν × List (Finding ν)) (keep : κ × Tracked ν → Bool)
    (table : List (κ × Tracked ν)) : List (κ × Tracked ν) × List (Finding ν) :=
  let tracked := trackAll maxKeys .default saw table (visitCounts.entries counts)
  let swept := sweep (fun k => (get counts k).isSome) missed visit.entries tracked.1
  (swept.1.filter keep, tracked.2 ++ swept.2)

namespace Signals

variable (s : Signals ν) (order : Order ν) (bucket : Bucket ν)

/-- A service that is in the bucket. -/
def sawService (_ : Option Text) (count : ℕ) (t : Tracked ν) : Tracked ν × List (Finding ν) :=
  (⟨t.base.update (Arith.ofNat count) false, 0, false⟩, [])

def missedService (service : Option Text) : Tracked ν → Tracked ν × List (Finding ν) :=
  age (serviceSilenceMinMean ν) true fun quiet mean => ⟨service, .silentService quiet mean, false⟩

def closeServices : Signals ν × List (Finding ν) :=
  let closed := closeTracked bucket.serviceTotal order.totals order.services sawService
    missedService (fun e => !forgettable (serviceSilenceMinMean ν) e.2) s.services
  ({ s with services := closed.1 }, closed.2)

/-- The services that are flagged as silent. -/
def silentServices : List (Option Text) :=
  (s.services.filter fun e => e.2.flagged).map Prod.fst

/-- A template that is in the bucket. -/
def sawTemplate (key : Key) (count : ℕ) (t : Tracked ν) : Tracked ν × List (Finding ν) :=
  let x : ν := Arith.ofNat count
  let b := t.base
  let spiked := decide (warmupBuckets ≤ b.n) && le (templateRateMin ν) x
    && lt (b.mean + 4.0 * b.sd + 10.0) x && le (4.0 * b.mean) x
  (⟨b.update x spiked, 0, false⟩,
    if spiked then [⟨key.1, .templateRate key.2 count b.mean,
      decide (warn ≤ (get bucket.templateSeverity key).getD 0)⟩] else [])

def missedTemplate (silent : List (Option Text)) (key : Key) :
    Tracked ν → Tracked ν × List (Finding ν) :=
  age (silenceMinMean ν) (!silent.contains key.1) fun quiet mean =>
    ⟨key.1, .silentTemplate key.2 quiet mean, false⟩

def closeTemplates : Signals ν × List (Finding ν) :=
  let closed := closeTracked bucket.template order.counts order.templates (sawTemplate bucket)
    (missedTemplate s.silentServices)
    (fun e => (get bucket.template e.1).isSome || !forgettable (silenceMinMean ν) e.2) s.templates
  ({ s with templates := closed.1 }, closed.2)

/-- Errors as a share of the records of a service. -/
def sawShare (service : Option Text) (total : ℕ) (b : Baseline ν) : Baseline ν × List (Finding ν) :=
  let errors := (get bucket.serviceErrors service).getD 0
  let x : ν := Arith.ofNat errors / Arith.ofNat total
  let spiked := decide (warmupBuckets ≤ b.n) && decide (shareMinErrors ≤ errors)
    && lt (b.mean + 4.0 * b.sd + 0.05) x && le (3.0 * b.mean) x
  (b.update x spiked,
    if spiked then [⟨service, .errorShare errors total x b.mean, true⟩] else [])

def closeShare : Signals ν × List (Finding ν) :=
  let tracked := trackAll maxKeys .default (sawShare bucket) s.share
    ((order.totals.entries bucket.serviceTotal).filter fun e => shareMinTotal ≤ e.2)
  ({ s with share := tracked.1 }, tracked.2)

/-- A number in a template, against its own history. -/
def sawNumber (key : NumberKey) (acc : ν × ℕ) (b : Baseline ν) : Baseline ν × List (Finding ν) :=
  let x := acc.1 / Arith.ofNat acc.2
  let shift := Arith.abs (x - b.mean)
  let drifted := decide (driftWarmupBuckets ≤ b.n) && lt (5.0 * b.sd) shift
    && le (0.5 * Arith.abs b.mean) shift && le 1.0 shift
  (b.update x drifted,
    if drifted then [⟨key.1.1, .paramDrift key.1.2 key.2 x b.mean, true⟩] else [])

def closeDrift : Signals ν × List (Finding ν) :=
  let tracked := trackAll maxKeys .default sawNumber s.drift
    ((order.numbers.entries bucket.numbers).filter fun e => driftMinValues ≤ e.2.2)
  ({ s with drift := tracked.1 }, tracked.2)

variable (ν) in
/-- A bucket that was closed: what was in it, the state after it and what it showed. -/
structure Closing where
  bucket : Bucket ν
  after : Signals ν
  found : List (Finding ν)

/-- One turn of the loop in `close_buckets`. Services come first: a silent one is one finding. -/
def closeBucket : Closing ν :=
  let bucket := s.bucket
  let (s, services) := closeServices { s with bucket := .empty } order bucket
  let (s, templates) := s.closeTemplates order bucket
  let (s, share) := s.closeShare order bucket
  let (s, drift) := s.closeDrift order bucket
  ⟨bucket, { s with bucketStartMs := s.bucketStartMs + bucketMs },
    services ++ templates ++ share ++ drift⟩

/-- The loop, for so many buckets. -/
def closeLoop (orders : ℕ → Order ν) : ℕ → Signals ν → Signals ν × List (Closing ν)
  | 0, s => (s, [])
  | left + 1, s =>
    let closing := s.closeBucket (orders left)
    let (s, closings) := closeLoop orders left closing.after
    (s, closing :: closings)

/-- A gap that is too long for the baselines. -/
def stalled (nowMs : ℕ) : Bool :=
  decide (forgetAfterQuiet * bucketMs < nowMs - s.bucketStartMs)

/-- The buckets that have finished. -/
def finished (nowMs : ℕ) : ℕ := (nowMs - s.bucketStartMs) / bucketMs

def closings (orders : ℕ → Order ν) (nowMs : ℕ) : Signals ν × List (Closing ν) :=
  if s.stalled nowMs then (.new nowMs s.pairs, []) else closeLoop orders (s.finished nowMs) s

/-- What they showed. -/
def closeBuckets (orders : ℕ → Order ν) (nowMs : ℕ) : Signals ν × List (Finding ν) :=
  let (s, closings) := s.closings orders nowMs
  (s, closings.flatMap fun c => c.found)

end Signals

end LogLess.SyncSignals
