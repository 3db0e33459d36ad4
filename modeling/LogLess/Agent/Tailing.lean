import LogLess.Agent.Hec
import LogLess.Mask
import LogLess.Serde
import LogLess.Tail.Restore

/-!
# From a tailed line to the log

The record loop polls the tailer, makes a record of each line and processes them, beside
the other sources and the writer. The checkpoint is saved at the end of the poll, when none
of its lines has been processed yet.

So what a crash keeps depends on when it comes. The lines before the restored offset are
synced, or counted as refused or shed, in every run in which the agent crashes only when
the lines polled are processed, those enqueued are published by the writer, and no fragment
is held back.
-/

namespace LogLess.Agent

open LogLess.Wal LogLess.Tail

/-! ## The record of a line -/

/-- `u128::from_str_radix` at radix 16, of 32 bytes of text: the bytes of the number. -/
def u128Bytes (value : Text) : Option (List UInt8) :=
  match value with
  | '+' :: digits => Serde.unhex ('0' :: digits)
  | _ => Serde.unhex value

/-- `trace_bytes`, with the two hashes of the value as one parameter. -/
def traceBytes (hash : Text → ByteArr 16) (value : Text) : ByteArr 16 :=
  if Text.len value = 32 then
    match u128Bytes value with
    | some bytes => if h : bytes.length = 16 then ⟨bytes, h⟩ else hash value
    | none => hash value
  else hash value

/-- The severity that the head of a line names. -/
def headSeverity (head : Text) : Option Severity :=
  let names := [("TRACE", Severity.TRACE), ("DEBUG", .DEBUG), ("INFO", .INFO), ("WARN", .WARN),
    ("WARNING", .WARN), ("ERROR", .ERROR), ("FATAL", .FATAL), ("CRITICAL", .FATAL)]
  (names.find? fun entry => entry.1.toList == asciiUpper (Text.trim head)).map Prod.snd

/-- One word of the body: a correlation field, or nothing. -/
def lineToken (hash : Text → ByteArr 16) (record : LogRecord) (token : Text) : LogRecord :=
  match Text.splitOnce '=' token with
  | none => record
  | some (key, value) =>
    if key = "service".toList ∨ key = "svc".toList then
      { record with service := some (Text.trimMatches (· == Mask.doubleQuote) value) }
    else if key = "trace_id".toList ∨ key = "trace".toList then
      { record with traceId := some (traceBytes hash value) }
    else if key = "request_id".toList ∨ key = "req_id".toList ∨ key = "session_id".toList then
      { record with attributes := record.attributes ++ [⟨"request_id".toList, .str value⟩] }
    else record

/-- `parse_line`, with the event id and the clock reading it takes. -/
def parseLine (hash : Text → ByteArr 16) (eventId : Uuid) (now : ℕ) (line : Text) : LogRecord :=
  let (severity, body) :=
    match Text.splitOnce '\t' line with
    | some (head, rest) =>
      match headSeverity head with
      | some severity => (severity, rest)
      | none => (.INFO, line)
    | none => (.INFO, line)
  (Text.splitWhitespace body).foldl (lineToken hash) (.new eventId now severity body)

/-- The record the loop makes of a tailed line: its source's service, where the line names
none, and its source's index. -/
def tailRecord (hash : Text → ByteArr 16) (source : Source) (eventId : Uuid) (now : ℕ)
    (line : Text) : LogRecord :=
  let record := parseLine hash eventId now line
  let record := { record with service := record.service.or source.service }
  match source.index with
  | some index =>
    { record with attributes := record.attributes ++ [⟨attrIndex, .str index⟩] }
  | none => record

/-! ## An agent that tails one file -/

/-- What became of a line that the loop had in hand. -/
inductive Fate where
  /-- Refused or shed, and a counter says so. -/
  | counted
  /-- Enqueued as record `k` of a session. -/
  | entered (session k : ℕ)
  /-- Dropped with the batch. -/
  | lost
deriving DecidableEq

structure Node where
  tail : World
  /-- The offset the checkpoint gave when the agent was last started; zero if it gave none. -/
  restored : ℕ
  pipe : Pipeline
  /-- The lines polled and not processed yet, with their records. -/
  pending : List (Text × LogRecord)
  /-- The lines that left the loop since the file was last read from its start. -/
  done : List (Text × Fate)
  /-- The logs of the sessions that ended in a crash, with the counts they had published. -/
  past : List (SplitWal.Journal × ℕ)

/-- What a restarted agent opens its log with. -/
structure Reopen where
  lastMain : Option ℕ
  lastLate : Option ℕ
  config : SplitConfig
  instant : ℕ
  uuids : ℕ → Uuid
  lateUuids : ℕ → Uuid

def Reopen.wal (r : Reopen) : SplitWal :=
  SplitWal.open r.lastMain r.lastLate r.config r.instant r.uuids r.lateUuids

inductive NodeEvent where
  /-- The program that writes the file appends to it. -/
  | write (chunk : Bytes)
  /-- The loop polls; line `i` gets this event id and clock reading. -/
  | poll (stamps : ℕ → Uuid × ℕ)
  | pipe (e : Event)
  | crash (r : Reopen)

/-- How many records were turned away, by the counters. -/
def Intake.turnedAway (i : Intake) : ℕ :=
  i.routes.refused + i.refusedDebug + i.queue.stats.dropped

namespace Node

variable (s : Settings) (c : Codec) (hash : Text → ByteArr 16)
  (path : Bytes) (source : Source) (id : FileId)

/-- An empty file and an agent just started. -/
def start (r : Reopen) : Node := ⟨World.init path source, 0, .start s r.wal, [], [], []⟩

def write (n : Node) (chunk : Bytes) : Node :=
  { n with tail := n.tail.step path source id (.append chunk) }

/-- A pass of the loop begins with a poll. -/
def poll (n : Node) (stamps : ℕ → Uuid × ℕ) : Node :=
  if n.pipe.work.isNone ∧ n.pipe.done = false then
    let out := (pollRouted (n.tail.fs path id) n.tail.tailer).2
    let batch := out.zipIdx.map fun (e, i) =>
      (e.line, tailRecord hash ⟨source.fromEnd, e.service, e.index⟩ (stamps i).1 (stamps i).2 e.line)
    { n with
      tail := n.tail.step path source id .poll
      pipe := n.pipe.takeOther (batch.map Prod.snd)
      pending := batch }
  else n

/-- What the counters say of the record that was processed. -/
def fate (n : Node) (pipe : Pipeline) : Fate :=
  if n.pipe.intake.queue.stats.enqueued < pipe.intake.queue.stats.enqueued then
    .entered n.past.length n.pipe.intake.queue.stats.enqueued
  else if n.pipe.intake.turnedAway < pipe.intake.turnedAway then .counted
  else .lost

def process (n : Node) (m : Moment) : Node :=
  let pipe := n.pipe.process s m
  match n.pending with
  | [] => { n with pipe := pipe }
  | (line, _) :: rest =>
    -- the count stands still while the record waits for room
    if pipe.intake.count = n.pipe.intake.count then { n with pipe := pipe }
    else { n with pipe := pipe, pending := rest, done := n.done ++ [(line, n.fate pipe)] }

def lose (n : Node) : List (Text × Fate) := n.pending.map fun x => (x.1, .lost)

def finish (n : Node) : Node :=
  let pipe := n.pipe.finish
  if pipe.work.isNone then { n with pipe := pipe, pending := [], done := n.done ++ n.lose }
  else { n with pipe := pipe }

/-- The agent dies and is started again: the tailer from its checkpoint, the queue empty. -/
def crash (n : Node) (r : Reopen) : Node :=
  let tail := n.tail.step path source id .restart
  let past := n.past ++ [(n.pipe.journal, n.pipe.synced)]
  match Assoc.get tail.tailer.cursors path with
  | some cursor => ⟨tail, cursor.offset, .start s r.wal, [], n.done ++ n.lose, past⟩
  | none => ⟨{ tail with lines := [] }, 0, .start s r.wal, [], [], past⟩

def step (n : Node) : NodeEvent → Node
  | .write chunk => n.write path source id chunk
  | .poll stamps => n.poll hash path source id stamps
  | .pipe (.process m) => n.process s m
  | .pipe .finish => n.finish
  | .pipe e => { n with pipe := n.pipe.step s c e }
  | .crash r => n.crash s path source id r

/-- Every record enqueued in this session is within what the writer has published. -/
def allPublished (n : Node) : Bool :=
  n.done.all fun x =>
    match x.2 with
    | .entered session k => session < n.past.length || k < n.pipe.synced
    | _ => true

/-- The condition on the steps of a run: the file stays within the range of its offsets; a
poll reads up to the end of a character, from the start of the file unless the source skips
what is there; the record cap does not cut a polled batch off; and a crash of an agent
whose checkpoint can name the path finds no line polled and not processed, no line enqueued
and not published, and no fragment held back. -/
def ok (n : Node) : NodeEvent → Bool
  | .write chunk => n.tail.ok path source (.append chunk)
  | .poll _ => n.pipe.work.isSome || n.pipe.done || n.tail.ok path source .poll
  | .pipe .finish => n.pending.isEmpty || !n.pipe.done
  | .crash _ =>
    !nameable path || n.pending.isEmpty && n.allPublished &&
      (Assoc.get n.tail.tailer.cursors path).all fun cursor => cursor.fragment.isEmpty
  | _ => true

/-! ## Specification -/

/-- A record the loop makes of this line. -/
def Parsed (line : Text) (record : LogRecord) : Prop :=
  ∃ eventId now, record = tailRecord hash source eventId now line

/-- A line is accounted for: a counter says it was turned away, or its record is among
those that a completed sync of a session's log covers. -/
def Accounted (past : List (SplitWal.Journal × ℕ)) (x : Text × Fate) : Prop :=
  match x.2 with
  | .counted => True
  | .entered session k => ∃ journal w, past[session]? = some (journal, w) ∧ k < w ∧
      journal.Covers c w ∧ ∃ record mined, Parsed hash source x.1 record ∧
        journal.records[k]? = some (Intake.stored s record mined)
  | .lost => False

/-- Every terminated, non-empty line of the file is accounted for or lies at or after the
restored offset. -/
def Survives (n : Node) : Prop :=
  ∃ kept, kept <+: n.done ∧ (∀ x ∈ kept, Accounted s c hash source n.past x) ∧
    terminatedLines (Utf8.lossy n.tail.content)
      = kept.map Prod.fst ++ terminatedLines (Utf8.lossy (n.tail.content.drop n.restored))

end Node

/-! ## What one step of the pipeline does to a polled batch -/

/-- What was enqueued stays enqueued. -/
theorem Pipeline.submitted_step (s : Settings) (c : Codec) (p : Pipeline) (e : Event) :
    p.submitted <+: (p.step s c e).submitted := by
  cases e with
  | post channel records =>
    simp only [Pipeline.step, Pipeline.post]
    split
    · split
      · exact List.prefix_refl _
      · split
        · exact List.prefix_refl _
        · split <;> exact List.prefix_refl _
    · exact List.prefix_refl _
  | issue k =>
    simp only [Pipeline.step, Pipeline.issue]
    split <;> exact List.prefix_refl _
  | takeHec =>
    simp only [Pipeline.step, Pipeline.takeHec]
    split <;> exact List.prefix_refl _
  | takeOther records =>
    simp only [Pipeline.step, Pipeline.takeOther]
    split <;> exact List.prefix_refl _
  | process m =>
    simp only [Pipeline.step, Pipeline.process]
    split
    · split
      · exact List.prefix_refl _
      · exact List.prefix_append _ _
    · exact List.prefix_refl _
  | finish =>
    simp only [Pipeline.step, Pipeline.finish]
    split
    · split <;> exact List.prefix_refl _
    · exact List.prefix_refl _
  | recv n =>
    rw [Pipeline.step, (Pipeline.SameFront.recv p n).submitted]
  | append now instant =>
    rw [Pipeline.step, (Pipeline.SameFront.append p now instant).submitted]
  | maybeSync now instant =>
    rw [Pipeline.step, (Pipeline.SameFront.maybeSync p now instant).submitted]
  | shutdown instant =>
    rw [Pipeline.step, (Pipeline.SameFront.shutdown p instant).submitted]
  | fail => exact List.prefix_refl _

/-- Only the loop's own steps change the batch it has in hand. -/
theorem Pipeline.work_step {s : Settings} {c : Codec} {p : Pipeline} {e : Event} {w : Work}
    (hwork : p.work = some w) (hprocess : ∀ m, e ≠ .process m) (hfinish : e ≠ .finish) :
    (p.step s c e).work = some w := by
  cases e with
  | post channel records =>
    simp only [Pipeline.step, Pipeline.post]
    split
    · split
      · exact hwork
      · split
        · exact hwork
        · split <;> exact hwork
    · exact hwork
  | issue k =>
    simp only [Pipeline.step, Pipeline.issue]
    split <;> exact hwork
  | takeHec =>
    simp only [Pipeline.step, Pipeline.takeHec, hwork]
  | takeOther records =>
    simp only [Pipeline.step, Pipeline.takeOther, hwork]
  | process m => exact absurd rfl (hprocess m)
  | finish => exact absurd rfl hfinish
  | recv n => rw [Pipeline.step, (Pipeline.SameFront.recv p n).work, hwork]
  | append now instant =>
    rw [Pipeline.step, (Pipeline.SameFront.append p now instant).work, hwork]
  | maybeSync now instant =>
    rw [Pipeline.step, (Pipeline.SameFront.maybeSync p now instant).work, hwork]
  | shutdown instant =>
    rw [Pipeline.step, (Pipeline.SameFront.shutdown p instant).work, hwork]
  | fail => exact hwork

/-- Every record processed is enqueued or turned away, and counted as such. -/
theorem Intake.enqueued_add_turnedAway {s : Settings} {m : Moment} {i i' : Intake}
    {r : LogRecord} {more : Bool} (h : i.process s m r = some (i', more)) :
    i'.queue.stats.enqueued + i'.turnedAway = i.queue.stats.enqueued + i.turnedAway + 1 := by
  unfold Intake.process at h
  simp only at h
  split at h
  · next hroute =>
    simp only [Intake.counted, Option.some.injEq, Prod.mk.injEq] at h
    obtain ⟨rfl, -⟩ := h
    rw [hroute]
    simp only [Intake.turnedAway, Intake.noteRoute]
    omega
  · next hroute =>
    have hrefused : (i.noteRoute (s.tenancy.routeRecord s.showFloat r attrIndex).2).routes.refused
        = i.routes.refused := by
      cases hr : (s.tenancy.routeRecord s.showFloat r attrIndex).2 with
      | known index => rfl
      | defaulted index => rfl
      | refused => exact absurd hr hroute
    split at h
    · simp only [Intake.counted, Option.some.injEq, Prod.mk.injEq] at h
      obtain ⟨rfl, -⟩ := h
      simp only [Intake.turnedAway, Intake.queue_noteRoute, Intake.refusedDebug_noteRoute, hrefused]
      omega
    · obtain ⟨⟨q, a⟩, hsub, h⟩ := Option.bind_eq_some_iff.mp h
      simp only [Intake.counted, Option.pure_def, Option.some.injEq, Prod.mk.injEq] at h
      obtain ⟨rfl, -⟩ := h
      obtain ⟨-, rfl⟩ := IngestQueue.submit_eq_some hsub
      simp only [Intake.turnedAway, Intake.queue_noteRoute, Intake.refusedDebug_noteRoute, hrefused]
      rcases a with _ | ⟨_ | _ | _⟩ | _ <;>
        simp only [IngestStats.count, IngestStats.dropped] <;> omega

/-- The loop's step with a record at the head of its batch: the record waits for room, or it
leaves the batch, turned away or enqueued in its stored form. -/
theorem Pipeline.process_head {s : Settings} {p : Pipeline} {m : Moment} {seq : Option ℕ}
    {r : LogRecord} {rest entered : List LogRecord} (hwork : p.work = some ⟨seq, r :: rest, entered⟩) :
    p.process s m = p ∨
      (p.process s m).intake.count = p.intake.count + 1 ∧
        (∃ entered', (p.process s m).work = some ⟨seq, rest, entered'⟩) ∧
        ((p.process s m).intake.queue.stats.enqueued = p.intake.queue.stats.enqueued ∧
            p.intake.turnedAway < (p.process s m).intake.turnedAway ∨
          p.intake.queue.stats.enqueued < (p.process s m).intake.queue.stats.enqueued ∧
            (p.process s m).submitted = p.submitted ++ [Intake.stored s r m.mined]) := by
  cases hdone : p.done with
  | true =>
    left
    simp only [Pipeline.process, hwork, hdone]
  | false =>
    cases hp : p.intake.process s m r with
    | none =>
      left
      simp only [Pipeline.process, hwork, hdone, hp]
    | some next =>
      right
      obtain ⟨intake, more⟩ := next
      have hcount := (Intake.process_cases hp).1
      have hturned := Intake.enqueued_add_turnedAway hp
      obtain ⟨new, hnew, -, henq⟩ := process_enqueues hp
      simp only [Pipeline.process, hwork, hdone, hp, ← hnew]
      refine ⟨hcount, ⟨_, rfl⟩, ?_⟩
      by_cases hsame : intake.queue.stats.enqueued = p.intake.queue.stats.enqueued
      · exact .inl ⟨hsame, by omega⟩
      · right
        rw [if_neg hsame] at hnew
        refine ⟨?_, by rw [hnew]⟩
        rw [henq, hnew]
        exact Nat.lt_succ_self _

/-! ## Every run -/

theorem emitted_source {fs : Fs} {t : Tailer} {path : Bytes} {source : Source}
    (hpaths : t.paths = [(path, source)]) {e : Emitted} (he : e ∈ (pollRouted fs t).2) :
    e.service = source.service ∧ e.index = source.index := by
  simp only [pollRouted, hpaths, List.foldl_cons, List.foldl_nil, List.nil_append,
    List.mem_map] at he
  obtain ⟨line, -, rfl⟩ := he
  exact ⟨rfl, rfl⟩

namespace Node

variable {s : Settings} {c : Codec} {hash : Text → ByteArr 16} {path : Bytes} {source : Source}
  {id : FileId} {n : Node}

variable (s c hash source) in
/-- A line is accounted for, or its record is in this session's queue or log. -/
def Placed (n : Node) (x : Text × Fate) : Prop :=
  Accounted s c hash source n.past x ∨
    ∃ k record mined, x.2 = .entered n.past.length k ∧ Parsed hash source x.1 record ∧
      n.pipe.submitted[k]? = some (Intake.stored s record mined)

variable (s c hash path source id) in
/-- Each line emitted is pending or has a fate, and those before the restored offset are
accounted for. -/
structure Inv (n : Node) : Prop where
  tail : n.tail.Tails path source id
  ordered : ∃ threshold, n.pipe.Ordered c threshold
  /-- The pending lines are the batch in the loop's hands. -/
  work : n.pending ≠ [] → ∃ entered, n.pipe.work = some ⟨none, n.pending.map Prod.snd, entered⟩
  parsed : ∀ x ∈ n.pending, Parsed hash source x.1 x.2
  lines : n.tail.lines = n.done.map Prod.fst ++ n.pending.map Prod.fst
  placed : ∀ x ∈ n.done, n.Placed s c hash source x
  since : ∃ kept, kept <+: n.done ∧ (∀ x ∈ kept, Accounted s c hash source n.past x) ∧
    ∃ cursor : Cursor, cursor.offset = n.restored ∧ cursor.fragment = [] ∧
      Reads n.tail.content cursor (kept.map Prod.fst)

theorem Placed.mono {x : Text × Fate} {q : Pipeline} (h : n.Placed s c hash source x)
    (hsub : n.pipe.submitted <+: q.submitted) :
    ({ n with pipe := q } : Node).Placed s c hash source x := by
  rcases h with h | ⟨k, record, mined, hfate, hparsed, hk⟩
  · exact .inl h
  · obtain ⟨rest, hrest⟩ := hsub
    have hlt : k < n.pipe.submitted.length := (List.getElem?_eq_some_iff.mp hk).1
    refine .inr ⟨k, record, mined, hfate, hparsed, ?_⟩
    show q.submitted[k]? = _
    rw [← hrest, List.getElem?_append_left hlt, hk]

theorem inv_start (r : Reopen) : (start s path source r).Inv s c hash path source id where
  tail := World.Tails.init path source id
  ordered := ⟨_, .start (SplitWal.holds_open ..)⟩
  work := by simp [start]
  parsed := by simp [start]
  lines := rfl
  placed := by simp [start]
  since := ⟨[], List.nil_prefix, by simp,
    ⟨id, 0, [], none⟩, rfl, rfl, ⟨Nat.zero_le _, rfl, rfl, rfl⟩⟩

namespace Inv

theorem survives (h : n.Inv s c hash path source id) : n.Survives s c hash source := by
  obtain ⟨kept, hkept, haccounted, cursor, hoffset, hfragment, hreads⟩ := h.since
  refine ⟨kept, hkept, haccounted, ?_⟩
  -- the restored offset is between two lines
  have hsplit : Utf8.lossy n.tail.content = Utf8.lossy (n.tail.content.take cursor.offset)
      ++ Utf8.lossy (n.tail.content.drop cursor.offset) := by
    rw [← Utf8.lossy_append hreads.clean, List.take_append_drop]
  rw [hsplit, terminatedLines_append, ← hreads.lines, ← hreads.fragment, hfragment,
    List.nil_append, hoffset]

theorem write (h : n.Inv s c hash path source id) {chunk : Bytes}
    (hok : n.tail.ok path source (.append chunk) = true) :
    (n.write path source id chunk).Inv s c hash path source id :=
  { h with
    tail := h.tail.append hok
    since := by
      obtain ⟨kept, hkept, haccounted, cursor, hoffset, hfragment, hreads⟩ := h.since
      exact ⟨kept, hkept, haccounted, cursor, hoffset, hfragment, hreads.append chunk⟩ }

/-- An idle loop has no lines pending. -/
theorem pending_of_idle (h : n.Inv s c hash path source id) (hwork : n.pipe.work = none) :
    n.pending = [] := by
  by_contra hne
  obtain ⟨entered, hsome⟩ := h.work hne
  rw [hwork] at hsome
  cases hsome

theorem poll (h : n.Inv s c hash path source id) {stamps : ℕ → Uuid × ℕ}
    (hok : n.ok path source (.poll stamps) = true) :
    (n.poll hash path source id stamps).Inv s c hash path source id := by
  unfold Node.poll
  split
  · next hidle =>
    obtain ⟨hnone, hdone⟩ := hidle
    obtain ⟨threshold, ho⟩ := h.ordered
    have hwork : n.pipe.work = none := by simpa using hnone
    have hpending := h.pending_of_idle hwork
    have hpoll : n.tail.ok path source .poll = true := by simpa [Node.ok, hwork, hdone] using hok
    have hlines := h.lines
    rw [hpending, List.map_nil, List.append_nil] at hlines
    set out := (pollRouted (n.tail.fs path id) n.tail.tailer).2 with hout
    refine
      { tail := (h.tail.poll hpoll).1
        ordered := ⟨threshold, ho.step (s := s) (.takeOther _)⟩
        work := fun _ => ⟨[], by simp [Pipeline.takeOther, hwork, hdone]⟩
        parsed := ?_
        lines := ?_
        placed := fun x hx => (h.placed x hx).mono
          (Pipeline.submitted_step s c n.pipe (.takeOther _))
        since := h.since }
    · intro x hx
      obtain ⟨⟨e, i⟩, hmem, rfl⟩ := List.mem_map.mp hx
      have he : e ∈ out := List.fst_mem_of_mem_zipIdx hmem
      obtain ⟨hservice, hindex⟩ := emitted_source h.tail.paths he
      refine ⟨(stamps i).1, (stamps i).2, ?_⟩
      simp only [hservice, hindex]
    · show n.tail.lines ++ out.map Emitted.line = _
      rw [hlines, List.map_map]
      congr 1
      have hfst : out.map Emitted.line = (out.zipIdx.map Prod.fst).map Emitted.line := by
        rw [List.zipIdx_map_fst]
      rw [hfst, List.map_map]
      rfl
  · exact h

/-- A step of the pipeline that leaves the polled batch in the loop's hands. -/
theorem pipe (h : n.Inv s c hash path source id) {q : Pipeline}
    (ho : ∃ threshold, q.Ordered c threshold) (hsub : n.pipe.submitted <+: q.submitted)
    (hwork : n.pending ≠ [] → q.work = n.pipe.work) :
    ({ n with pipe := q } : Node).Inv s c hash path source id :=
  { h with
    ordered := ho
    work := by
      intro hne
      obtain ⟨entered, hsome⟩ := h.work hne
      exact ⟨entered, (hwork hne).trans hsome⟩
    placed := fun x hx => (h.placed x hx).mono hsub }

theorem process (h : n.Inv s c hash path source id) (m : Moment) :
    (n.process s m).Inv s c hash path source id := by
  obtain ⟨threshold, ho⟩ := h.ordered
  have ho' : ∃ threshold, (n.pipe.process s m).Ordered c threshold := ⟨threshold, ho.process m⟩
  have hsub : n.pipe.submitted <+: (n.pipe.process s m).submitted :=
    Pipeline.submitted_step s c n.pipe (.process m)
  unfold Node.process
  simp only
  split
  · next hpending =>
    exact h.pipe ho' hsub fun hne => absurd hpending hne
  · next line r rest hpending =>
    obtain ⟨entered, hwork⟩ := h.work (by simp [hpending])
    rw [hpending, List.map_cons] at hwork
    rcases Pipeline.process_head hwork with hsame | ⟨hcount, ⟨entered', hwork'⟩, hfate⟩
    · -- the record waits for room
      rw [hsame, if_pos rfl]
      exact h
    · rw [if_neg (by omega)]
      have hparsed : Parsed hash source line r := h.parsed (line, r) (by simp [hpending])
      refine
        { tail := h.tail
          ordered := ho'
          work := fun _ => ⟨entered', hwork'⟩
          parsed := fun x hx => h.parsed x (by simp [hpending, hx])
          lines := by
            rw [h.lines, hpending]
            simp
          placed := ?_
          since := ?_ }
      · intro x hx
        rcases List.mem_append.mp hx with hx | hx
        · exact (h.placed x hx).mono hsub
        · obtain rfl := List.mem_singleton.mp hx
          rcases hfate with ⟨hsame, hturned⟩ | ⟨hlt, hsubmitted⟩
          · -- turned away, and counted
            left
            simp only [Accounted, fate, hsame, lt_irrefl, if_false, if_pos hturned]
          · refine .inr ⟨n.pipe.intake.queue.stats.enqueued, r, m.mined, ?_, hparsed, ?_⟩
            · simp only [fate, if_pos hlt]
            · show (n.pipe.process s m).submitted[_]? = _
              rw [hsubmitted, ho.enqueued]
              exact List.getElem?_concat_length
      · obtain ⟨kept, hkept, rest⟩ := h.since
        exact ⟨kept, hkept.trans (List.prefix_append _ _), rest⟩

theorem finish (h : n.Inv s c hash path source id)
    (hok : n.ok path source (.pipe .finish) = true) : n.finish.Inv s c hash path source id := by
  obtain ⟨threshold, ho⟩ := h.ordered
  have ho' : ∃ threshold, n.pipe.finish.Ordered c threshold := ⟨threshold, ho.step (s := s) .finish⟩
  have hsub : n.pipe.submitted <+: n.pipe.finish.submitted :=
    Pipeline.submitted_step s c n.pipe .finish
  -- a batch with lines pending is neither through nor cut off
  have hkeep : n.pending ≠ [] → n.pipe.finish = n.pipe := by
    intro hne
    obtain ⟨entered, hwork⟩ := h.work hne
    have hdone : n.pipe.done = false := by simpa [Node.ok, hne] using hok
    simp [Pipeline.finish, hwork, hdone, hne]
  have hpipe := h.pipe ho' hsub fun hne => by rw [hkeep hne]
  unfold Node.finish
  simp only
  split
  · next hnone =>
    have hpending : n.pending = [] := by
      by_contra hne
      obtain ⟨entered, hwork⟩ := h.work hne
      rw [hkeep hne, hwork] at hnone
      cases hnone
    have hlose : n.done ++ n.lose = n.done := by simp [lose, hpending]
    rw [hlose]
    rw [← hpending]
    exact hpipe
  · exact hpipe

/-- With all of a session published, its lines are accounted for. -/
theorem accounted_of_published (h : n.Inv s c hash path source id)
    (hpublished : n.allPublished = true) {x : Text × Fate} (hx : x ∈ n.done) :
    Accounted s c hash source (n.past ++ [(n.pipe.journal, n.pipe.synced)]) x := by
  obtain ⟨threshold, ho⟩ := h.ordered
  rcases h.placed x hx with hx' | ⟨k, record, mined, hfate, hparsed, hk⟩
  · -- a session before
    obtain ⟨line, fate⟩ := x
    cases fate with
    | counted => trivial
    | entered session k =>
      obtain ⟨journal, w, hget, rest⟩ := hx'
      refine ⟨journal, w, ?_, rest⟩
      rw [List.getElem?_append_left (List.getElem?_eq_some_iff.mp hget).1, hget]
    | lost => exact hx'
  · obtain ⟨line, fate⟩ := x
    obtain rfl : fate = .entered n.past.length k := hfate
    have hlt : k < n.pipe.synced := by
      have := List.all_eq_true.mp hpublished _ hx
      simpa using this
    refine ⟨n.pipe.journal, n.pipe.synced, List.getElem?_concat_length, hlt, ho.synced.covers,
      record, mined, hparsed, ?_⟩
    rw [← hk, ← List.getElem?_take_of_lt hlt, ho.published.2, List.getElem?_take_of_lt hlt]

theorem crash (h : n.Inv s c hash path source id) {r : Reopen}
    (hok : n.ok path source (.crash r) = true) :
    (n.crash s path source id r).Inv s c hash path source id := by
  have ho : ∃ threshold, (Pipeline.start s r.wal).Ordered c threshold :=
    ⟨_, .start (SplitWal.holds_open ..)⟩
  unfold Node.crash
  simp only
  split
  · next cursor hload =>
    have hname : nameable path = true := by
      by_contra hname
      have hnone := @get_loadCheckpoint_of_not_nameable path (by simpa using hname)
        n.tail.checkpoint
      exact absurd (hload.symm.trans hnone) (by simp)
    simp only [Node.ok, hname, Bool.not_true, Bool.false_or, Bool.and_eq_true, List.isEmpty_iff,
      Option.all_eq_true] at hok
    obtain ⟨⟨hpending, hpublished⟩, hfragment⟩ := hok
    obtain ⟨htails, hreads, hnil⟩ := h.tail.restart hload fun c hc => hfragment c hc
    have hlines := h.lines
    rw [hpending, List.map_nil, List.append_nil] at hlines
    have hlose : n.done ++ n.lose = n.done := by simp [lose, hpending]
    rw [hlose]
    have haccounted := fun x hx => h.accounted_of_published (x := x) hpublished hx
    exact
      { tail := htails
        ordered := ho
        work := fun hne => absurd rfl hne
        parsed := by simp
        lines := hlines.trans (List.append_nil _).symm
        placed := fun x hx => .inl (haccounted x hx)
        since := ⟨n.done, List.prefix_refl _, haccounted, cursor, rfl, hnil, hlines ▸ hreads⟩ }
  · next hload =>
    exact
      { tail := h.tail.restart_over hload
        ordered := ho
        work := fun hne => absurd rfl hne
        parsed := by simp
        lines := rfl
        placed := by simp
        since := ⟨[], List.nil_prefix, by simp, ⟨id, 0, [], none⟩, rfl, rfl,
          ⟨Nat.zero_le _, rfl, rfl, rfl⟩⟩ }

theorem step (h : n.Inv s c hash path source id) (e : NodeEvent)
    (hok : n.ok path source e = true) :
    (n.step s c hash path source id e).Inv s c hash path source id := by
  cases e with
  | write chunk => exact h.write hok
  | poll stamps => exact h.poll hok
  | crash r => exact h.crash hok
  | pipe e =>
    have hother : (∀ m, e ≠ .process m) → e ≠ .finish →
        ({ n with pipe := n.pipe.step s c e } : Node).Inv s c hash path source id := by
      intro hprocess hfinish
      obtain ⟨threshold, ho⟩ := h.ordered
      refine h.pipe ⟨threshold, ho.step e⟩ (Pipeline.submitted_step s c n.pipe e) fun hne => ?_
      obtain ⟨entered, hwork⟩ := h.work hne
      rw [hwork]
      exact Pipeline.work_step hwork hprocess hfinish
    cases e with
    | process m => exact h.process m
    | finish => exact h.finish hok
    | _ => exact hother (by simp) (by simp)

end Inv

end Node

/-- **Tailed lines survive a crash.** In every run of an agent that tails one file, with the
writes to the file, the polls, the threads of the agent and any number of crashes
interleaved, and with each step meeting `ok`: every terminated, non-empty line of the file
is covered by a completed sync, counted as refused or shed, or at or after the offset
restored last; and once an idle loop polls, all lines behind that offset are read. -/
theorem tailed_lines_survive (s : Settings) (c : Codec) (hash : Text → ByteArr 16) (path : Bytes)
    (source : Source) (id : FileId) (r : Reopen) (events : List NodeEvent) (n : Node)
    (hrun : n = Runs.run (Node.step s c hash path source id) (.start s path source r) events)
    (hok : Runs.Meets (Node.step s c hash path source id) (fun n e => n.ok path source e = true)
      (.start s path source r) events) :
    n.Survives s c hash source ∧
      ∀ stamps n', n.pipe.work = none → n.pipe.done = false →
        n.ok path source (.poll stamps) = true →
        n' = n.step s c hash path source id (.poll stamps) →
        n'.done.map Prod.fst ++ n'.pending.map Prod.fst
          = terminatedLines (Utf8.lossy n.tail.content) := by
  have h : n.Inv s c hash path source id := by
    rw [hrun]
    exact hok.invariant (fun _ e hi hm => hi.step e hm) (Node.inv_start r)
  refine ⟨h.survives, ?_⟩
  intro stamps n' hwork hdone hpoll hn'
  have h' := h.step (.poll stamps) hpoll
  have htail : n'.tail = n.tail.step path source id .poll := by
    simp [hn', Node.step, Node.poll, hwork, hdone]
  have hlines := (h.tail.poll (by simpa [Node.ok, hwork, hdone] using hpoll)).2
  rw [← hn'] at h'
  rw [← h'.lines, htail, hlines]

/-- An agent that tails one file, just started. -/
def exampleReopen : Reopen :=
  ⟨none, none, SplitWal.smallConfig, 0, fun _ => exampleUuid, fun _ => exampleUuid⟩

def zeroHash : Text → ByteArr 16 := fun _ => ⟨List.replicate 16 0, rfl⟩

/-- The line `a` is written and polled. -/
def writeAndPoll : List NodeEvent := [.write [0x61, 10], .poll fun _ => (exampleUuid, 1000)]

/-- The line is synced before the crash, and another is written after it. -/
theorem tailed_lines_survive_synced :
    let n := Runs.run (Node.step plainSettings Postcard.codec zeroHash examplePath fromStart ⟨1, 2⟩)
      (.start plainSettings examplePath fromStart exampleReopen)
      (writeAndPoll ++ [.pipe (.process ⟨0, none, false⟩), .pipe .finish, .pipe (.recv 4096),
        .pipe (.append 1000 1), .pipe (.maybeSync 1000 2000), .crash exampleReopen,
        .write [0x62, 10]])
    n.restored = 2 ∧ n.done = [(['a'], .entered 0 0)] ∧
      n.Survives plainSettings Postcard.codec zeroHash fromStart := by
  intro n
  refine ⟨by decide +kernel, by decide +kernel, ?_⟩
  exact (tailed_lines_survive plainSettings Postcard.codec zeroHash examplePath fromStart ⟨1, 2⟩
    exampleReopen _ n rfl (by decide +kernel)).1

/-- The agent crashes before it has processed the line: the restored offset is behind it,
and nothing of it is in any log or counter. -/
theorem polled_line_lost :
    let n := Runs.run (Node.step plainSettings Postcard.codec zeroHash examplePath fromStart ⟨1, 2⟩)
      (.start plainSettings examplePath fromStart exampleReopen)
      (writeAndPoll ++ [.crash exampleReopen])
    n.restored = 2 ∧ terminatedLines (Utf8.lossy n.tail.content) = [['a']] ∧
      ¬ n.Survives plainSettings Postcard.codec zeroHash fromStart := by
  intro n
  have hdone : n.done = [(['a'], .lost)] := by decide +kernel
  refine ⟨by decide +kernel, by decide +kernel, ?_⟩
  rintro ⟨kept, hkept, haccounted, hlines⟩
  have hone : kept.map Prod.fst = [['a']] := by
    have hleft : terminatedLines (Utf8.lossy n.tail.content) = [['a']] := by decide +kernel
    have hright : terminatedLines (Utf8.lossy (n.tail.content.drop n.restored)) = [] := by
      decide +kernel
    rw [hleft, hright, List.append_nil] at hlines
    exact hlines.symm
  obtain ⟨x, hx, -⟩ := List.mem_map.mp (hone ▸ List.mem_singleton.mpr rfl : ['a'] ∈ kept.map Prod.fst)
  have hmem := hkept.subset hx
  rw [hdone] at hmem
  obtain rfl := List.mem_singleton.mp hmem
  exact haccounted _ hx

end LogLess.Agent
