import LogLess.Lib.Runs
import LogLess.Hec.Ack
import LogLess.Agent.Process
import LogLess.Wal.Split

/-!
# From a HEC post to an acknowledgement

The agent's threads as one step system. HTTP threads admit a batch into the HEC channel
and issue its ack id; the record loop takes batches of all sources, processes each record
and binds a HEC batch to the count of records enqueued so far; the writer takes records
from the queue, appends them and publishes what is synced.

A batch is bound whatever became of its records. So an acknowledged batch is durable in
every run in which no record of a HEC batch is refused at the door, shed or cut off by
the record cap.
-/

namespace LogLess.Agent

open LogLess.Wal LogLess.Hec

/-- `hec::Batch`. -/
structure Batch where
  seq : ℕ
  records : List LogRecord
deriving DecidableEq

/-- The attribute a HEC event names its index with. -/
def hecIndexKey : Text := "index".toList

/-- `HEC_PENDING_BATCHES`. -/
def hecPendingBatches : ℕ := 256

/-- A batch in the record loop's hands. -/
structure Work where
  /-- The sequence of a HEC batch; another source has none. -/
  seq : Option ℕ
  rest : List LogRecord
  /-- What of the batch has been enqueued. -/
  entered : List LogRecord

structure Pipeline where
  acks : AckTable
  /-- `synced_records`: what the writer has published. -/
  synced : ℕ
  /-- The channel from the HEC receiver to the record loop. -/
  hec : List Batch
  /-- Posts that were accepted and whose ack id is not issued yet. -/
  replies : List (Text × ℕ)
  intake : Intake
  /-- The record cap is hit and the loop ends. -/
  done : Bool
  work : Option Work
  /-- The batch the writer has taken from the queue and not appended yet. -/
  taken : List LogRecord
  journal : SplitWal.Journal
  /-- The writer thread is running. -/
  writing : Bool
  /-- Every batch ever admitted, every id ever issued, every record ever enqueued. -/
  admitted : List Batch
  issued : List Issued
  submitted : List LogRecord

inductive Event where
  /-- A post, with its channel when it wants an ack. -/
  | post (channel : Option Text) (records : List LogRecord)
  /-- The thread of the `k`-th accepted post issues its ack id. -/
  | issue (k : ℕ)
  | takeHec
  /-- Tail, OTLP, Sentry or a peer has records for the loop. -/
  | takeOther (records : List LogRecord)
  | process (m : Moment)
  /-- The loop is through with a batch, or breaks off at the cap. -/
  | finish
  | recv (n : ℕ)
  | append (now instant : ℕ)
  | maybeSync (now instant : ℕ)
  /-- The writer's last sync, after which it ends. -/
  | shutdown (instant : ℕ)
  /-- The writer dies of an error. -/
  | fail

namespace Pipeline

variable (s : Settings) (c : Codec)

def start (wal : SplitWal) : Pipeline where
  acks := .new
  synced := 0
  hec := []
  replies := []
  intake := .new s
  done := false
  work := none
  taken := []
  journal := .start wal
  writing := true
  admitted := []
  issued := []
  submitted := []

/-- The HEC request path up to the answer of the sink: the channel must have room for an
ack, each record is routed, the queue must have room for the batch, and so must the
channel to the record loop. -/
def post (p : Pipeline) (channel : Option Text) (records : List LogRecord) : Pipeline :=
  if channel.all p.acks.hasCapacity then
    let (acks, seq) := p.acks.nextBatchSeq
    let p := { p with acks := acks }
    let routed := records.map fun r => s.tenancy.routeRecord s.showFloat r hecIndexKey
    if routed.any fun x => x.2 == .refused then p
    else if s.queueCapacity - p.intake.queue.len < records.length then p
    else if hecPendingBatches ≤ p.hec.length then p
    else
      let batch : Batch := ⟨seq, routed.map Prod.fst⟩
      { p with
        hec := p.hec ++ [batch]
        replies := p.replies ++ (channel.map fun name => (name, seq)).toList
        admitted := p.admitted ++ [batch] }
  else p

def issue (p : Pipeline) (k : ℕ) : Pipeline :=
  match p.replies[k]? with
  | none => p
  | some (name, seq) =>
    let (acks, id) := p.acks.issue p.synced name seq
    { p with
      acks := acks
      replies := p.replies.eraseIdx k
      issued := p.issued ++ [⟨name, id, seq⟩] }

def takeHec (p : Pipeline) : Pipeline :=
  match p.work, p.done, p.hec with
  | none, false, batch :: hec =>
    { p with hec := hec, work := some ⟨some batch.seq, batch.records, []⟩ }
  | _, _, _ => p

def takeOther (p : Pipeline) (records : List LogRecord) : Pipeline :=
  match p.work, p.done with
  | none, false => { p with work := some ⟨none, records, []⟩ }
  | _, _ => p

/-- One call of `process` by the loop; a record that waits for room leaves all as it is. -/
def process (p : Pipeline) (m : Moment) : Pipeline :=
  match p.work, p.done with
  | some ⟨seq, r :: rest, entered⟩, false =>
    match p.intake.process s m r with
    | none => p
    | some (intake, more) =>
      let new :=
        if intake.queue.stats.enqueued = p.intake.queue.stats.enqueued then []
        else [Intake.stored s r m.mined]
      { p with
        intake := intake
        done := !more
        work := some ⟨seq, rest, entered ++ new⟩
        submitted := p.submitted ++ new }
  | _, _ => p

/-- The end of a batch: a HEC batch is bound to the number of records enqueued. -/
def finish (p : Pipeline) : Pipeline :=
  match p.work with
  | some ⟨seq, rest, _⟩ =>
    if rest = [] ∨ p.done = true then
      { p with
        work := none
        acks := match seq with
          | some seq => p.acks.bind seq p.intake.queue.stats.enqueued
          | none => p.acks }
    else p
  | none => p

/-- The writer ends and with it the consuming end of the queue. -/
def stopWriter (p : Pipeline) : Pipeline :=
  { p with
    writing := false
    intake := { p.intake with queue := { p.intake.queue with disconnected := true } } }

def recv (p : Pipeline) (n : ℕ) : Pipeline :=
  if p.writing = true ∧ p.taken = [] then
    let (taken, queue) := p.intake.queue.nextBatch n
    { p with taken := taken, intake := { p.intake with queue := queue } }
  else p

/-- The writer appends what it has taken; an error ends it. -/
def append (p : Pipeline) (now instant : ℕ) : Pipeline :=
  if p.writing = true then
    let call := SplitWal.Call.append p.taken now instant
    let journal := p.journal.step c call
    match (p.journal.wal.exec c call).2 with
    | .ok _ => { p with journal := journal, taken := [] }
    | .error _ => ({ p with journal := journal }).stopWriter
  else p

/-- A call that may publish a count, made between two batches. -/
def publish (p : Pipeline) (call : SplitWal.Call) : Pipeline :=
  { p with
    journal := p.journal.step c call
    synced := (SplitWal.Journal.count (p.journal.wal.exec c call).2).getD p.synced }

def maybeSync (p : Pipeline) (now instant : ℕ) : Pipeline :=
  if p.writing = true ∧ p.taken = [] then p.publish c (.maybeSync now instant) else p

def shutdown (p : Pipeline) (instant : ℕ) : Pipeline :=
  if p.writing = true ∧ p.taken = [] then (p.publish c (.sync instant)).stopWriter else p

def step (p : Pipeline) : Event → Pipeline
  | .post channel records => p.post s channel records
  | .issue k => p.issue k
  | .takeHec => p.takeHec
  | .takeOther records => p.takeOther records
  | .process m => p.process s m
  | .finish => p.finish
  | .recv n => p.recv n
  | .append now instant => p.append c now instant
  | .maybeSync now instant => p.maybeSync c now instant
  | .shutdown instant => p.shutdown c instant
  | .fail => p.stopWriter

/-- The condition on the steps of a run: when the loop processes a record of a HEC batch,
that record is not DEBUG under critical pressure, the writer is there, the queue has room
(or the record is WARN or above and its wait has not run out), and the cap is not reached
before the last record of the batch. -/
def admits (p : Pipeline) : Event → Bool
  | .process m =>
    match p.work, p.done with
    | some ⟨some _, r :: rest, _⟩, false =>
      !(m.pressure == 2 && r.levelClass == .debug) && !p.intake.queue.disconnected &&
        (p.intake.queue.len < p.intake.queue.capacity ||
          r.levelClass == .warnPlus && !m.timedOut) &&
        (rest.isEmpty || s.maxRecords == 0 || p.intake.count + 1 < s.maxRecords)
    | _, _ => true
  | _ => true

end Pipeline

/-! ## From the queue to the log -/

/-- The records a call of `process` enqueues: the stored form of its record, or none. -/
theorem process_enqueues {s : Settings} {m : Moment} {i i' : Intake} {r : LogRecord} {more : Bool}
    (h : i.process s m r = some (i', more)) :
    ∃ new, (new = if i'.queue.stats.enqueued = i.queue.stats.enqueued then []
        else [Intake.stored s r m.mined]) ∧
      i'.queue.items = i.queue.items ++ new ∧
      i'.queue.stats.enqueued = i.queue.stats.enqueued + new.length := by
  refine ⟨_, rfl, ?_⟩
  obtain ⟨-, -, ⟨-, hq, -⟩ | ⟨-, -, hq, -⟩ | ⟨-, -, -, a, hsub⟩⟩ := Intake.process_cases h
  · simp [hq]
  · simp [hq]
  · obtain ⟨-, hq⟩ := IngestQueue.submit_eq_some hsub
    rw [hq]
    rcases a with _ | ⟨_ | _ | _⟩ | _ <;> simp [IngestStats.count]

/-- What the steps of the writer leave as it is. -/
structure Pipeline.SameFront (p q : Pipeline) : Prop where
  acks : q.acks = p.acks
  hec : q.hec = p.hec
  replies : q.replies = p.replies
  done : q.done = p.done
  work : q.work = p.work
  admitted : q.admitted = p.admitted
  issued : q.issued = p.issued
  submitted : q.submitted = p.submitted

namespace Pipeline.SameFront

variable (p : Pipeline) {c : Codec}

theorem refl : p.SameFront p := ⟨rfl, rfl, rfl, rfl, rfl, rfl, rfl, rfl⟩

theorem stopWriter : p.SameFront p.stopWriter := ⟨rfl, rfl, rfl, rfl, rfl, rfl, rfl, rfl⟩

theorem publish {call : SplitWal.Call} : p.SameFront (p.publish c call) :=
  ⟨rfl, rfl, rfl, rfl, rfl, rfl, rfl, rfl⟩

theorem recv (n : ℕ) : p.SameFront (p.recv n) := by
  unfold Pipeline.recv
  split
  · exact ⟨rfl, rfl, rfl, rfl, rfl, rfl, rfl, rfl⟩
  · exact refl p

theorem append (now instant : ℕ) : p.SameFront (p.append c now instant) := by
  unfold Pipeline.append
  split
  · simp only
    split <;> exact ⟨rfl, rfl, rfl, rfl, rfl, rfl, rfl, rfl⟩
  · exact refl p

theorem maybeSync (now instant : ℕ) : p.SameFront (p.maybeSync c now instant) := by
  unfold Pipeline.maybeSync
  split
  · exact publish p
  · exact refl p

theorem shutdown (instant : ℕ) : p.SameFront (p.shutdown c instant) := by
  unfold Pipeline.shutdown
  split
  · exact ⟨rfl, rfl, rfl, rfl, rfl, rfl, rfl, rfl⟩
  · exact refl p

end Pipeline.SameFront

theorem Pipeline.synced_recv (p : Pipeline) (n : ℕ) : (p.recv n).synced = p.synced := by
  unfold Pipeline.recv
  split <;> rfl

theorem Pipeline.synced_append {c : Codec} (p : Pipeline) (now instant : ℕ) :
    (p.append c now instant).synced = p.synced := by
  unfold Pipeline.append
  split
  · simp only
    split <;> rfl
  · rfl

/-- Whatever is refused or shed: the records enqueued reach the log in their order, and what
the writer has published of them is synced. -/
structure Pipeline.Ordered (c : Codec) (threshold : ℕ) (p : Pipeline) : Prop where
  journal : p.journal.Ok c threshold
  /-- While the writer runs, what was enqueued is appended, in its hands or queued. -/
  pipe : p.writing = true → p.submitted = p.journal.records ++ p.taken ++ p.intake.queue.items
  enqueued : p.intake.queue.stats.enqueued = p.submitted.length
  synced : p.journal.Synced c threshold p.synced
  published : p.synced ≤ p.submitted.length ∧
    p.journal.records.take p.synced = p.submitted.take p.synced

namespace Pipeline.Ordered

variable {s : Settings} {c : Codec} {threshold : ℕ} {p : Pipeline}

theorem start {wal : SplitWal} (h : wal.Holds c threshold [] [] 0 0) :
    (Pipeline.start s wal).Ordered c threshold where
  journal := ⟨h, List.Perm.refl _, by simp [Pipeline.start, SplitWal.Journal.start]⟩
  pipe _ := rfl
  enqueued := rfl
  synced := ⟨Nat.zero_le _, 0, 0, h, List.Perm.refl _⟩
  published := ⟨le_rfl, rfl⟩

theorem process (h : p.Ordered c threshold) (m : Moment) :
    (p.process s m).Ordered c threshold := by
  unfold Pipeline.process
  split
  · next seq r rest entered hwork hdone =>
    split
    · exact h
    · next intake more hp =>
      obtain ⟨new, hnew, hitems, henq⟩ := process_enqueues hp
      simp only [← hnew]
      have hpre : p.submitted <+: p.submitted ++ new := List.prefix_append _ _
      exact { h with
        pipe := by
          intro hw
          rw [hitems, h.pipe hw, List.append_assoc]
        enqueued := by
          rw [henq, h.enqueued, List.length_append]
        published := by
          refine ⟨h.published.1.trans hpre.length_le, ?_⟩
          rw [List.take_append_of_le_length h.published.1]
          exact h.published.2 }
  · exact h

theorem stopWriter (h : p.Ordered c threshold) : p.stopWriter.Ordered c threshold :=
  { h with pipe := fun hw => by cases hw }

theorem recv (h : p.Ordered c threshold) (n : ℕ) : (p.recv n).Ordered c threshold := by
  unfold Pipeline.recv
  split
  · next hw =>
    exact { h with
      pipe := by
        intro _
        rw [h.pipe hw.1, hw.2]
        simp [IngestQueue.nextBatch] }
  · exact h

/-- A call of the writer that leaves what was published as it is. -/
theorem journalStep (h : p.Ordered c threshold) (call : SplitWal.Call) (taken : List LogRecord)
    (hpipe : p.writing = true → p.submitted
      = (p.journal.step c call).records ++ taken ++ p.intake.queue.items) :
    Ordered c threshold { p with journal := p.journal.step c call, taken := taken } :=
  { h with
    journal := h.journal.step call
    pipe := hpipe
    synced := h.synced.step call
    published := by
      refine ⟨h.published.1, ?_⟩
      rw [← h.published.2]
      exact List.take_append_of_le_length h.synced.1 }

theorem append (h : p.Ordered c threshold) (now instant : ℕ) :
    (p.append c now instant).Ordered c threshold := by
  unfold Pipeline.append
  split
  · next hw =>
    simp only
    split
    · next n hok =>
      refine h.journalStep _ [] fun _ => ?_
      rw [h.pipe hw]
      simp [SplitWal.Journal.step, SplitWal.accepted_of_ok hok]
    · -- the writer stops, and with it the pipe
      exact h.stopWriter.journalStep (.append p.taken now instant) p.taken
        fun hw => by cases hw
  · exact h

/-- What is published only grows. -/
theorem publish (h : p.Ordered c threshold) (call : SplitWal.Call)
    (hcall : p.journal.wal.accepted c call = []) (hw : p.writing = true) :
    (p.publish c call).Ordered c threshold ∧ p.synced ≤ (p.publish c call).synced := by
  have hrecords : (p.journal.step c call).records = p.journal.records := by
    simp [SplitWal.Journal.step, hcall]
  have hpipe : p.submitted = (p.journal.step c call).records ++ p.taken ++ p.intake.queue.items := by
    rw [hrecords]
    exact h.pipe hw
  have hstep := h.journalStep call p.taken fun _ => hpipe
  unfold Pipeline.publish
  cases hn : SplitWal.Journal.count (p.journal.wal.exec c call).2 with
  | none => exact ⟨hstep, le_rfl⟩
  | some n =>
    -- the count is all that was appended, which is the front of what was enqueued
    obtain ⟨hlen, hsynced⟩ := h.journal.synced_of_count hn
    have hfront : (p.journal.step c call).records <+: p.submitted := by
      rw [hpipe, List.append_assoc]
      exact List.prefix_append _ _
    have hle : p.synced ≤ n := by
      rw [hlen, hrecords]
      exact h.synced.1
    refine ⟨{ hstep with synced := hsynced, published := ⟨hlen ▸ hfront.length_le, ?_⟩ }, hle⟩
    rw [Option.getD_some, hlen, List.take_length]
    exact List.prefix_iff_eq_take.mp hfront

theorem maybeSync (h : p.Ordered c threshold) (now instant : ℕ) :
    (p.maybeSync c now instant).Ordered c threshold := by
  unfold Pipeline.maybeSync
  split
  · next hw => exact (h.publish _ rfl hw.1).1
  · exact h

theorem shutdown (h : p.Ordered c threshold) (instant : ℕ) :
    (p.shutdown c instant).Ordered c threshold := by
  unfold Pipeline.shutdown
  split
  · next hw => exact (h.publish _ rfl hw.1).1.stopWriter
  · exact h

/-- A step that touches neither the queue nor the log. -/
theorem of_same {q : Pipeline} (h : p.Ordered c threshold) (hjournal : q.journal = p.journal)
    (hwriting : q.writing = p.writing) (hsubmitted : q.submitted = p.submitted)
    (htaken : q.taken = p.taken) (hintake : q.intake = p.intake) (hsynced : q.synced = p.synced) :
    q.Ordered c threshold := by
  refine ⟨hjournal ▸ h.journal, ?_, ?_, ?_, ?_⟩
  · rw [hwriting, hsubmitted, hjournal, htaken, hintake]
    exact h.pipe
  · rw [hintake, hsubmitted]
    exact h.enqueued
  · rw [hjournal, hsynced]
    exact h.synced
  · rw [hsynced, hsubmitted, hjournal]
    exact h.published

theorem post (h : p.Ordered c threshold) (channel : Option Text) (records : List LogRecord) :
    (p.post s channel records).Ordered c threshold := by
  unfold Pipeline.post
  split
  · simp only
    split
    · exact h.of_same rfl rfl rfl rfl rfl rfl
    · split
      · exact h.of_same rfl rfl rfl rfl rfl rfl
      · split <;> exact h.of_same rfl rfl rfl rfl rfl rfl
  · exact h

theorem step (h : p.Ordered c threshold) (e : Event) : (p.step s c e).Ordered c threshold := by
  cases e with
  | post channel records => exact h.post channel records
  | issue k =>
    simp only [Pipeline.step, Pipeline.issue]
    split
    · exact h
    · exact h.of_same rfl rfl rfl rfl rfl rfl
  | takeHec =>
    simp only [Pipeline.step, Pipeline.takeHec]
    split
    · exact h.of_same rfl rfl rfl rfl rfl rfl
    · exact h
  | takeOther records =>
    simp only [Pipeline.step, Pipeline.takeOther]
    split
    · exact h.of_same rfl rfl rfl rfl rfl rfl
    · exact h
  | process m => exact h.process m
  | finish =>
    simp only [Pipeline.step, Pipeline.finish]
    split
    · split
      · exact h.of_same rfl rfl rfl rfl rfl rfl
      · exact h
    · exact h
  | recv n => exact h.recv n
  | append now instant => exact h.append now instant
  | maybeSync now instant => exact h.maybeSync now instant
  | shutdown instant => exact h.shutdown instant
  | fail => exact h.stopWriter

end Pipeline.Ordered

/-! ## The invariant -/

/-- The stored form of a record differs from it in the template id at most. -/
def Same (r r' : LogRecord) : Prop := r' = { r with templateId := r'.templateId }

/-- A record already placed: routing it again changes nothing. -/
def Routed (s : Settings) (r : LogRecord) : Prop :=
  ∃ index, s.tenancy.routeRecord s.showFloat r attrIndex = (r, .known index)

/-- Batch `seq` was admitted, and all its records are among the first `w` enqueued. -/
def Bound (admitted : List Batch) (submitted : List LogRecord) (seq w : ℕ) : Prop :=
  ∃ b ∈ admitted, b.seq = seq ∧ w ≤ submitted.length ∧
    ∃ block, List.Forall₂ Same b.records block ∧ block <:+: submitted.take w

theorem Bound.mono {admitted admitted' : List Batch} {submitted submitted' : List LogRecord}
    {seq w : ℕ} (h : Bound admitted submitted seq w) (ha : admitted ⊆ admitted')
    (hs : submitted <+: submitted') : Bound admitted' submitted' seq w := by
  obtain ⟨b, hb, hseq, hw, block, hsame, hblock⟩ := h
  obtain ⟨rest, rfl⟩ := hs
  refine ⟨b, ha hb, hseq, by rw [List.length_append]; omega, block, hsame, ?_⟩
  rwa [List.take_append_of_le_length hw]

/-- What holds of the agent after every run whose steps meet the condition. -/
structure Inv (s : Settings) (c : Codec) (threshold : ℕ) (p : Pipeline) : Prop where
  journal : p.journal.Ok c threshold
  /-- While the writer runs, what was enqueued is appended, in its hands or queued. -/
  pipe : p.writing = true → p.submitted = p.journal.records ++ p.taken ++ p.intake.queue.items
  enqueued : p.intake.queue.stats.enqueued = p.submitted.length
  synced : p.journal.Synced c threshold p.synced
  published : p.synced ≤ p.submitted.length ∧
    p.journal.records.take p.synced = p.submitted.take p.synced
  acks : p.acks.Tracks p.synced p.issued (Bound p.admitted p.submitted)
  replies : ∀ x ∈ p.replies, ∃ b ∈ p.admitted, b.seq = x.2
  issued : ∀ x ∈ p.issued, ∃ b ∈ p.admitted, b.seq = x.seq
  seqs : (p.admitted.map Batch.seq).Pairwise (· < ·) ∧ ∀ b ∈ p.admitted, b.seq < p.acks.nextBatch
  routed : ∀ b ∈ p.admitted, ∀ r ∈ b.records, Routed s r
  hec : ∀ b ∈ p.hec, b ∈ p.admitted
  /-- The part of a HEC batch that the loop has processed is the end of what was enqueued. -/
  work : ∀ w ∈ p.work, ∀ seq ∈ w.seq, (p.done = true → w.rest = []) ∧
    ∃ b ∈ p.admitted, b.seq = seq ∧ ∃ before, b.records = before ++ w.rest ∧
      List.Forall₂ Same before w.entered ∧ w.entered <:+ p.submitted

namespace Inv

variable {s : Settings} {c : Codec} {threshold : ℕ} {p : Pipeline}

theorem ordered (h : Inv s c threshold p) : p.Ordered c threshold :=
  ⟨h.journal, h.pipe, h.enqueued, h.synced, h.published⟩

theorem start {wal : SplitWal} (h : wal.Holds c threshold [] [] 0 0) :
    Inv s c threshold (.start s wal) where
  journal := (Pipeline.Ordered.start (s := s) h).journal
  pipe _ := rfl
  enqueued := rfl
  synced := (Pipeline.Ordered.start (s := s) h).synced
  published := ⟨le_rfl, rfl⟩
  acks := AckTable.tracks_new
  replies := by simp [Pipeline.start]
  issued := by simp [Pipeline.start]
  seqs := ⟨List.Pairwise.nil, by simp [Pipeline.start]⟩
  routed := by simp [Pipeline.start]
  hec := by simp [Pipeline.start]
  work := by simp [Pipeline.start]

/-! ### The HTTP threads -/

/-- Taking a sequence number keeps what the table tracks. -/
theorem nextBatchSeq (h : Inv s c threshold p) :
    Inv s c threshold { p with acks := p.acks.nextBatchSeq.1 } :=
  { h with
    acks := ⟨h.acks.channels, h.acks.watermarks⟩
    seqs := ⟨h.seqs.1, fun b hb => Nat.lt_succ_of_lt (h.seqs.2 b hb)⟩ }

theorem post (h : Inv s c threshold p) (channel : Option Text) (records : List LogRecord) :
    Inv s c threshold (p.post s channel records) := by
  unfold Pipeline.post
  split
  · have hseq := h.nextBatchSeq
    simp only
    split
    · exact hseq
    · next hroute =>
      split
      · exact hseq
      · split
        · exact hseq
        · -- the batch is admitted: every record of it was placed
          have hrouted : ∀ r ∈ (records.map fun r =>
              s.tenancy.routeRecord s.showFloat r hecIndexKey).map Prod.fst, Routed s r := by
            intro r hr
            obtain ⟨x, hx, rfl⟩ := List.mem_map.mp hr
            obtain ⟨r, -, rfl⟩ := List.mem_map.mp hx
            have hne : (s.tenancy.routeRecord s.showFloat r hecIndexKey).2 ≠ .refused := by
              intro heq
              exact hroute (List.any_eq_true.mpr ⟨_, hx, by simp [heq]⟩)
            exact Tenancy.routeRecord_again (by decide) hne
          have hsub : ∀ b : Batch, p.admitted ⊆ p.admitted ++ [b] := fun b =>
            List.subset_append_left _ _
          exact { hseq with
            acks := hseq.acks.mono le_rfl fun seq w hb => hb.mono (hsub _) (List.prefix_refl _)
            replies := by
              intro x hx
              rcases List.mem_append.mp hx with hx | hx
              · obtain ⟨b, hb, he⟩ := h.replies x hx
                exact ⟨b, hsub _ hb, he⟩
              · obtain ⟨name, -, rfl⟩ := by simpa using hx
                exact ⟨_, List.mem_append_right _ (List.mem_singleton.mpr rfl), rfl⟩
            issued := by
              intro x hx
              obtain ⟨b, hb, he⟩ := h.issued x hx
              exact ⟨b, hsub _ hb, he⟩
            seqs := by
              refine ⟨?_, ?_⟩
              · rw [List.map_append, List.pairwise_append]
                refine ⟨h.seqs.1, List.pairwise_singleton _ _, ?_⟩
                intro a ha b hb
                obtain ⟨x, hx, rfl⟩ := List.mem_map.mp ha
                obtain rfl : b = p.acks.nextBatch := by simpa [AckTable.nextBatchSeq] using hb
                exact h.seqs.2 x hx
              · intro b hb
                rcases List.mem_append.mp hb with hb | hb
                · exact hseq.seqs.2 b hb
                · obtain rfl := List.mem_singleton.mp hb
                  exact Nat.lt_succ_self _
            routed := by
              intro b hb
              rcases List.mem_append.mp hb with hb | hb
              · exact h.routed b hb
              · obtain rfl := List.mem_singleton.mp hb
                exact hrouted
            hec := by
              intro b hb
              rcases List.mem_append.mp hb with hb | hb
              · exact hsub _ (h.hec b hb)
              · exact List.mem_append_right _ hb
            work := by
              intro w hw seq hseq
              obtain ⟨hdone, b, hb, rest⟩ := h.work w hw seq hseq
              exact ⟨hdone, b, hsub _ hb, rest⟩ }
  · exact h

theorem issue (h : Inv s c threshold p) (k : ℕ) : Inv s c threshold (p.issue k) := by
  unfold Pipeline.issue
  split
  · exact h
  · next name seq hk =>
    have hmem := List.mem_of_getElem? hk
    exact { h with
      acks := h.acks.issue name seq
      replies := fun x hx => h.replies x (List.mem_of_mem_eraseIdx hx)
      issued := by
        intro x hx
        rcases List.mem_append.mp hx with hx | hx
        · exact h.issued x hx
        · obtain rfl := List.mem_singleton.mp hx
          exact h.replies _ hmem }

/-! ### The record loop -/

theorem takeHec (h : Inv s c threshold p) : Inv s c threshold p.takeHec := by
  unfold Pipeline.takeHec
  split
  · next batch hec hwork hdone hhec =>
    have hmem : batch ∈ p.admitted := h.hec batch (hhec ▸ List.mem_cons_self)
    exact { h with
      hec := fun b hb => h.hec b (hhec ▸ List.mem_cons_of_mem _ hb)
      work := by
        rintro w hw seq hseq
        obtain rfl := Option.some.inj hw
        obtain rfl := Option.some.inj hseq
        refine ⟨fun hd => by simp [hdone] at hd, batch, hmem, rfl, [], rfl, List.Forall₂.nil, ?_⟩
        exact List.nil_suffix }
  · exact h

theorem takeOther (h : Inv s c threshold p) (records : List LogRecord) :
    Inv s c threshold (p.takeOther records) := by
  unfold Pipeline.takeOther
  split
  · exact { h with
      work := by
        rintro w hw seq hseq
        obtain rfl := Option.some.inj hw
        cases hseq }
  · exact h

/-- A record of a HEC batch that meets the condition is enqueued as it was admitted. -/
theorem process_admitted {m : Moment} {i i' : Intake} {r : LogRecord} {more : Bool}
    (h : i.process s m r = some (i', more)) (hr : Routed s r)
    (hdoor : m.pressure ≠ 2 ∨ r.levelClass ≠ .debug) (hconn : i.queue.disconnected = false)
    (hroom : i.queue.len < i.queue.capacity ∨ r.levelClass = .warnPlus ∧ m.timedOut = false) :
    i'.queue.stats.enqueued = i.queue.stats.enqueued + 1 ∧
      Same r (Intake.stored s r m.mined) := by
  obtain ⟨index, hroute⟩ := hr
  have hstored : Intake.stored s r m.mined = { r with templateId := r.templateId.or m.mined } := by
    simp [Intake.stored, hroute]
  have hclass : (Intake.stored s r m.mined).levelClass = r.levelClass := by rw [hstored]; rfl
  refine ⟨?_, by rw [Same, hstored]⟩
  obtain ⟨-, -, ⟨hrefused, -⟩ | ⟨-, hd, -⟩ | ⟨-, -, -, a, hsub⟩⟩ := Intake.process_cases h
  · rw [hroute] at hrefused
    cases hrefused
  · have hd' : m.pressure = 2 ∧ r.levelClass = .debug := by
      simpa [Intake.refusedAtDoor, hclass] using hd
    exact absurd hd' (not_and_or.mpr hdoor)
  · obtain ⟨hadm, hq⟩ := IngestQueue.submit_eq_some hsub
    have ha : a = .enqueued := by
      unfold IngestQueue.admission at hadm
      rw [hconn, hclass] at hadm
      split at hadm
      · simp at *
      · split at hadm
        · exact (Option.some.inj hadm).symm
        · next hfull =>
          obtain ⟨hwarn, htime⟩ := hroom.resolve_left hfull
          simp [hwarn, htime] at hadm
    rw [hq, ha]
    rfl

theorem process (h : Inv s c threshold p) {m : Moment} (hok : p.admits s (.process m) = true) :
    Inv s c threshold (p.process s m) := by
  have ho := h.ordered.process (s := s) m
  unfold Pipeline.process at ho ⊢
  split
  · next seq r rest entered hwork hdone =>
    split
    · exact h
    · next intake more hp =>
      obtain ⟨new, hnew, hitems, henq⟩ := process_enqueues hp
      simp only [hwork, hdone, hp, ← hnew] at ho ⊢
      have hpre : p.submitted <+: p.submitted ++ new := List.prefix_append _ _
      have hbound : ∀ seq w, Bound p.admitted p.submitted seq w →
          Bound p.admitted (p.submitted ++ new) seq w := fun seq w hb =>
        hb.mono (List.Subset.refl _) hpre
      exact { h with
        pipe := ho.pipe
        enqueued := ho.enqueued
        published := ho.published
        acks := h.acks.mono le_rfl hbound
        work := by
          rintro w hw q hq
          obtain rfl := Option.some.inj hw
          obtain ⟨-, b, hb, hbseq, before, hrecords, hsame, hsuffix⟩ := h.work _ hwork q hq
          obtain rfl : seq = some q := hq
          simp only [Pipeline.admits, hwork, hdone, Bool.and_eq_true, Bool.or_eq_true,
            Bool.not_eq_true', Bool.and_eq_false_iff, decide_eq_true_eq, beq_iff_eq,
            List.isEmpty_iff, beq_eq_false_iff_ne] at hok
          obtain ⟨⟨⟨hdoor, hconn⟩, hroom⟩, hcap⟩ := hok
          have hr : Routed s r := h.routed b hb r (by rw [hrecords]; simp)
          obtain ⟨hone, hsameNew⟩ := process_admitted hp hr hdoor hconn hroom
          have hnew' : new = [Intake.stored s r m.mined] := by
            rw [hnew, if_neg (by omega)]
          refine ⟨?_, b, hb, hbseq, before ++ [r], by simp [hrecords], ?_, ?_⟩
          · -- the cap is not hit before the last record
            intro hdone'
            obtain ⟨hcount, hmore, -⟩ := Intake.process_cases hp
            rw [hmore, hcount] at hdone'
            simp only [Bool.not_not, Bool.and_eq_true, decide_eq_true_eq] at hdone'
            rcases hcap with (hrest | hzero) | hlt
            · exact hrest
            · omega
            · omega
          · rw [hnew']
            exact List.rel_append hsame (List.Forall₂.cons hsameNew List.Forall₂.nil)
          · obtain ⟨front, hfront⟩ := hsuffix
            exact ⟨front, by rw [← hfront, List.append_assoc]⟩ }
  · exact h

theorem finish (h : Inv s c threshold p) : Inv s c threshold p.finish := by
  unfold Pipeline.finish
  split
  · next seq rest entered hwork =>
    split
    · next hend =>
      exact { h with
        acks := by
          cases hseq : seq with
          | none => exact h.acks
          | some q =>
            -- the whole batch is the end of what has been enqueued
            obtain ⟨hdone, b, hb, hbseq, before, hrecords, hsame, front, hfront⟩ :=
              h.work _ hwork q hseq
            have hrest : rest = [] := hend.elim id hdone
            refine h.acks.bind ⟨b, hb, hbseq, h.enqueued.le, entered, ?_, ?_⟩
            · rwa [hrecords, hrest, List.append_nil]
            · rw [h.enqueued, List.take_length]
              exact ⟨front, [], by rw [List.append_nil, hfront]⟩
        seqs := by
          cases seq <;> exact h.seqs
        work := by simp }
    · exact h
  · exact h

/-! ### The writer -/

/-- A step of the writer: the order is kept, and what is published only grows. -/
theorem writer {q : Pipeline} (h : Inv s c threshold p) (hfront : p.SameFront q)
    (ho : q.Ordered c threshold) (hle : p.synced ≤ q.synced) : Inv s c threshold q where
  journal := ho.journal
  pipe := ho.pipe
  enqueued := ho.enqueued
  synced := ho.synced
  published := ho.published
  acks := by
    rw [hfront.acks, hfront.issued, hfront.admitted, hfront.submitted]
    exact h.acks.mono hle fun _ _ hb => hb
  replies := by
    rw [hfront.replies, hfront.admitted]
    exact h.replies
  issued := by
    rw [hfront.issued, hfront.admitted]
    exact h.issued
  seqs := by
    rw [hfront.admitted, hfront.acks]
    exact h.seqs
  routed := by
    rw [hfront.admitted]
    exact h.routed
  hec := by
    rw [hfront.hec, hfront.admitted]
    exact h.hec
  work := by
    rw [hfront.work, hfront.done, hfront.admitted, hfront.submitted]
    exact h.work

theorem maybeSync (h : Inv s c threshold p) (now instant : ℕ) :
    Inv s c threshold (p.maybeSync c now instant) := by
  unfold Pipeline.maybeSync
  split
  · next hw =>
    obtain ⟨ho, hle⟩ := h.ordered.publish (.maybeSync now instant) rfl hw.1
    exact h.writer (.publish p) ho hle
  · exact h

theorem shutdown (h : Inv s c threshold p) (instant : ℕ) :
    Inv s c threshold (p.shutdown c instant) := by
  unfold Pipeline.shutdown
  split
  · next hw =>
    obtain ⟨ho, hle⟩ := h.ordered.publish (.sync instant) rfl hw.1
    have hstop := h.writer (.publish p) ho hle
    exact hstop.writer (.stopWriter _) hstop.ordered.stopWriter le_rfl
  · exact h

theorem step (h : Inv s c threshold p) (e : Event) (hok : p.admits s e = true) :
    Inv s c threshold (p.step s c e) := by
  cases e with
  | post channel records => exact h.post channel records
  | issue k => exact h.issue k
  | takeHec => exact h.takeHec
  | takeOther records => exact h.takeOther records
  | process m => exact h.process hok
  | finish => exact h.finish
  | recv n => exact h.writer (.recv p n) (h.ordered.recv n) (Pipeline.synced_recv p n).ge
  | append now instant =>
    exact h.writer (.append p now instant) (h.ordered.append now instant)
      (Pipeline.synced_append p now instant).ge
  | maybeSync now instant => exact h.maybeSync now instant
  | shutdown instant => exact h.shutdown instant
  | fail => exact h.writer (.stopWriter p) h.ordered.stopWriter le_rfl

end Inv

/-- A batch whose records are durable: up to their template ids they are a contiguous part
of the first `n` records appended, and those are all in synced bytes. -/
def DurableBatch (c : Codec) (jn : SplitWal.Journal) (b : Batch) : Prop :=
  ∃ n block, List.Forall₂ Same b.records block ∧ block <:+: jn.records.take n ∧ jn.Covers c n

/-- The events of a post on channel `c` of one record, all the way to the log. -/
def postOne (record : LogRecord) (pressure : ℕ) : List Event :=
  [.post (some ['c']) [record], .issue 0, .takeHec, .process ⟨pressure, none, false⟩, .finish,
    .recv 4096, .append 1000 1, .maybeSync 1000 2000]

def exampleUuid : Uuid := .nowV7 1 (List.replicate 10 0) length_zeros

/-- An instance just started. -/
def exampleStart : Pipeline :=
  .start plainSettings
    (SplitWal.open none none SplitWal.smallConfig 0 (fun _ => exampleUuid) fun _ => exampleUuid)

end LogLess.Agent
