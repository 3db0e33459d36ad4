import LogLess.Lib.Runs
import LogLess.Sentry.Upstream

/-!
# The Sentry proxy

Requests of SDKs, passes of the forwarder over the spool, and crashes, in any order. The
spool is a list of records with a synced and a consumed part; a push may find it full or
fail, and a sync may fail.

`Proxy.Kept` is the promise behind a 200: an item that the policy kept waits in a synced
record that is not consumed, or was in a request that upstream answered for good. An
envelope is answered 200 also if it was not queued, and the forwarder consumes a record
whose items were limited or which upstream put off with 429, so the promise is kept by the
runs in which none of this happens.
-/

namespace LogLess.Sentry

open Frames (Bytes)
open Json (Value)

/-! ## Routes -/

inductive UpstreamAuth where
  | relay
  | resign
deriving DecidableEq

structure Dsn where
  scheme : Text
  key : Text
  host : Text
  project : Text
deriving DecidableEq

def Dsn.origin (d : Dsn) : Text := d.scheme ++ "://".toList ++ d.host

def Dsn.envelopeUrl (d : Dsn) : Text :=
  d.origin ++ "/api/".toList ++ d.project ++ "/envelope/".toList

structure Routes where
  mode : UpstreamAuth
  configured : Option Dsn
  overrides : List (Text × Dsn)

def Routes.resolve (r : Routes) (key project : Text) : Option UpstreamTarget :=
  match r.overrides.find? fun o => o.1 = project with
  | some (_, dsn) => some ⟨dsn.envelopeUrl, dsn.key, dsn.project⟩
  | none =>
    match r.mode with
    | .relay => r.configured.map fun host =>
      ⟨host.origin ++ "/api/".toList ++ project ++ "/envelope/".toList, key, project⟩
    | .resign => r.configured.map fun dsn => ⟨dsn.envelopeUrl, dsn.key, dsn.project⟩

/-! ## Policy -/

structure SentryConfig where
  routes : Routes
  forwardEvents : Bool
  transactionSampleRate : ℚ
  forwardAttachments : Bool
  forwardUnknown : Bool

/-- FNV-1a over the bytes of the id. -/
def fnv1a (id : Text) : UInt64 :=
  (Utf8.encode id).foldl (fun hash b => (hash ^^^ b.toUInt64) * 0x100000001b3) 0xcbf29ce484222325

def sampleKeep (id : Text) (rate : ℚ) : Bool :=
  if 1 ≤ rate then true
  else if rate ≤ 0 then false
  else ((fnv1a id).toNat % 10000 : ℕ) < Float64.nearest (rate * 10000)

/-- Whether `apply_policy` keeps an item. -/
def SentryConfig.keeps (c : SentryConfig) (keepTransaction : Bool) (item : Item) : Bool :=
  match item.itemType with
  | .event => c.forwardEvents
  | .transaction => keepTransaction
  | .profile => keepTransaction
  | .attachment => c.forwardAttachments
  | .replayRecording => c.forwardAttachments
  | .session => true
  | .sessions => true
  | .clientReport => true
  | .other => c.forwardUnknown
  | .checkIn => true
  | .replayEvent => true
  | .log => true

def SentryConfig.applyPolicy (c : SentryConfig) (env : Envelope) (eventId : Text) : Envelope :=
  env.retainItems (c.keeps (sampleKeep eventId (max 0 (min 1 c.transactionSampleRate))))

/-! ## Records of the spool -/

structure Outbound where
  target : UpstreamTarget
  envelope : Envelope

namespace Outbound

/-- The target on one line, its names in order, then the envelope's own bytes. -/
def encode (o : Outbound) : Bytes :=
  Utf8.encode (Json.render (.obj
      [("key".toList, .str o.target.key), ("project".toList, .str o.target.project),
        ("url".toList, .str o.target.url)]))
    ++ newline :: o.envelope.toBytes

def decode (bytes : Bytes) : Option Outbound :=
  if newline ∈ bytes then do
    let (line, rest) := splitLine bytes
    let header ← (Utf8.strict line).bind Json.parse
    let members ←
      match header with
      | .obj members => some members
      | _ => none
    match Envelope.parse rest with
    | .error _ => none
    | .ok envelope =>
      let url ← (member members "url".toList).bind Serde.readStr
      let key ← (member members "key".toList).bind Serde.readStr
      let project ← (member members "project".toList).bind Serde.readStr
      return ⟨⟨url, key, project⟩, envelope⟩
  else none

/-- A record read back is what it was written with, but for the SDK's DSN. -/
theorem decode_encode_sent {o : Outbound} (h : o.envelope.Framed) :
    decode o.encode = some ⟨o.target,
      ⟨o.envelope.header.filter fun m => m.1 ≠ "dsn".toList, o.envelope.items⟩⟩ := by
  let members : List (Text × Value) :=
    [("key".toList, .str o.target.key), ("project".toList, .str o.target.project),
      ("url".toList, .str o.target.url)]
  have hvalid : (Value.obj members).valid = true := rfl
  have hmem : newline ∈ o.encode := by simp [encode]
  have hsplit : splitLine o.encode = (Utf8.encode (Json.render (.obj members)), o.envelope.toBytes) :=
    splitLine_append (newline_notMem_render hvalid) _
  have hnames : "url".toList ≠ "key".toList ∧ "url".toList ≠ "project".toList ∧
      "project".toList ≠ "key".toList := by decide +kernel
  have hurl : member members "url".toList = some (.str o.target.url) := by
    show member ([_, _] ++ [_]) _ = _
    rw [member_concat, if_pos rfl]
  have hproject : member members "project".toList = some (.str o.target.project) := by
    show member ([_] ++ [_] ++ [_]) _ = _
    rw [member_concat, if_neg hnames.2.1, member_concat, if_pos rfl]
  have hkey : member members "key".toList = some (.str o.target.key) := by
    show member ([] ++ [_] ++ [_] ++ [_]) _ = _
    rw [member_concat, if_neg hnames.1, member_concat, if_neg hnames.2.2, member_concat,
      if_pos rfl]
  rw [decode, if_pos hmem, hsplit]
  simp only [Utf8.strict_encode, Option.bind_eq_bind, Option.bind_some, Json.parse_render hvalid,
    parse_toBytes h, hurl, hkey, hproject, Serde.readStr]
  rfl

theorem decode_encode {o : Outbound} (h : o.envelope.Framed) :
    ∃ o', decode o.encode = some o' ∧ o'.envelope.items = o.envelope.items :=
  ⟨_, decode_encode_sent h, rfl⟩

end Outbound

/-! ## The state -/

/-- A record, and the acknowledgement its envelope was given. The code keeps the bytes only. -/
structure Record where
  ack : Option ℕ
  bytes : Bytes
deriving DecidableEq

/-- The records on disk, how many of them are synced, and how many are consumed. -/
structure Spool where
  records : List Record
  synced : ℕ
  cursor : ℕ

/-- What `peek` gives: the records after the cursor, each with the cursor behind it. -/
def Spool.peek (s : Spool) (max : ℕ) : List (ℕ × Record) :=
  ((s.records.zipIdx.drop s.cursor).take max).map fun r => (r.2 + 1, r.1)

/-- A pass of the forwarder: what is left of its batch, the time it began at and the cursor
to commit. -/
structure Pass where
  batch : List (ℕ × Record)
  now : ℕ
  delivered : Option ℕ

/-- The pass after a delivery: the record is consumed, or it is left and the pass ends. -/
def Pass.after (p : Pass) (delivery : Delivery) (cursor : ℕ) (rest : List (ℕ × Record)) : Pass :=
  match delivery with
  | .failed _ => { p with batch := [] }
  | .sent status =>
    if 500 ≤ status then { p with batch := [] }
    else if 400 ≤ status ∧ status ≠ 429 then { p with batch := rest, delivered := some cursor }
    else { p with batch := rest, delivered := some cursor }
  | .rateLimited => { p with batch := rest, delivered := some cursor }
  | .nothing => { p with batch := rest, delivered := some cursor }

structure Proxy where
  upstream : Upstream
  spool : Spool
  pass : Option Pass
  /-- The items that a 200 was given for, each kept by the policy and with a route, under the
  number of their acknowledgement. -/
  acked : List (ℕ × Item)
  /-- The requests made, under the acknowledgement of the record they were made for. -/
  sent : List (Option ℕ × SentRequest × Answer)

def Proxy.start : Proxy := ⟨⟨.default, []⟩, ⟨[], 0, 0⟩, none, [], []⟩

/-! ## Requests -/

inductive Endpoint where
  | envelope
  | store
deriving DecidableEq

structure Request where
  project : Text
  endpoint : Endpoint
  key : Text
  body : Bytes
  length_lt : body.length < 2 ^ 64

inductive PushOutcome where
  | stored
  | full
  | failed
deriving DecidableEq

/-- What the parts around the handler decide for a request: the verifier on the key and on
the envelope's tenant, the pipeline on the records, and the spool on the push and the sync. -/
structure Verdicts where
  authorized : Bool
  admitted : Bool
  accepted : Bool
  push : PushOutcome
  sync : Bool
deriving DecidableEq

/-- The envelope of a request; `fresh` is the id for one that has none. -/
def Request.parsed (r : Request) (fresh : Text) : Except EnvelopeError Envelope :=
  match r.endpoint with
  | .envelope => Envelope.parse r.body
  | .store => .ok (wrapStorePayload fresh r.body)

structure Reply where
  status : ℕ
  headers : List (Text × Text)
  body : Text
deriving DecidableEq

def errorReply (status : ℕ) (detail : Text) : Reply :=
  ⟨status, [], "\x7b\"detail\":\"".toList ++ detail.map (fun c => if c = '"' then '\'' else c)
    ++ "\"\x7d".toList⟩

def EnvelopeError.text : EnvelopeError → Text
  | .empty => "empty body".toList
  | .badHeader => "envelope header is not a JSON object".toList
  | .badItemHeader offset => "item header at offset ".toList ++ Decimal.ofNat offset
      ++ " is not a JSON object".toList
  | .truncated offset declared available => "item at offset ".toList ++ Decimal.ofNat offset
      ++ " declares ".toList ++ Decimal.ofNat declared ++ " bytes, only ".toList
      ++ Decimal.ofNat available ++ " present".toList
  | .tooManyItems limit => "envelope has more than ".toList ++ Decimal.ofNat limit
      ++ " items".toList

namespace Proxy

variable (config : SentryConfig)

/-- The end of `ingest`: the kept envelope is queued if it has items and a route. -/
def enqueue (s : Proxy) (target : Option UpstreamTarget) (env : Envelope) (v : Verdicts) : Proxy :=
  match target with
  | none => s
  | some target =>
    if env.isEmpty then s
    else
      let ack := s.acked.length
      let acked := s.acked ++ env.items.map fun item => (ack, item)
      match v.push with
      | .stored =>
        let records := s.spool.records ++ [⟨some ack, Outbound.encode ⟨target, env⟩⟩]
        { s with
          acked := acked
          spool := { s.spool with
            records := records
            synced := if v.sync then records.length else s.spool.synced } }
      | .full => { s with acked := acked }
      | .failed => { s with acked := acked }

def ingest (s : Proxy) (r : Request) (now : ℕ) (fresh : Text) (v : Verdicts) : Reply × Proxy :=
  if !v.authorized then (errorReply 401 "unknown sentry key".toList, s)
  else
    match s.upstream.limits.clientHeader now with
    | some header =>
      ({ errorReply 429 "rate limited upstream".toList with
        headers := [("X-Sentry-Rate-Limits".toList, header), ("Retry-After".toList, "60".toList)] },
        s)
    | none =>
      match r.parsed fresh with
      | .error e => (errorReply 400 ("malformed envelope: ".toList ++ e.text), s)
      | .ok env =>
        if !v.admitted then
          (errorReply 403 "the envelope names a tenant other than this key's".toList, s)
        else if !env.isEmpty && !v.accepted then
          ({ errorReply 429 "pipeline full".toList with
            headers := [("Retry-After".toList, "1".toList)] }, s)
        else
          let eventId := env.eventId.getD fresh
          let kept := config.applyPolicy env eventId
          (⟨200, [], "\x7b\"id\":\"".toList ++ eventId ++ "\"\x7d".toList⟩,
            s.enqueue (config.routes.resolve r.key r.project) kept v)

/-! ## Passes -/

/-- The beginning of `drain_once`. -/
def peek (s : Proxy) (now : ℕ) : Proxy :=
  match s.pass with
  | some _ => s
  | none => { s with pass := some ⟨s.spool.peek 64, now, none⟩ }

/-- The next record of the batch. -/
def deliver (s : Proxy) (answers : ℕ → Answer) : Proxy :=
  match s.pass with
  | none => s
  | some p =>
    match p.batch with
    | [] => s
    | (cursor, record) :: rest =>
      match Outbound.decode record.bytes with
      | none => { s with pass := some { p with batch := rest, delivered := some cursor } }
      | some item =>
        let (delivery, upstream) := s.upstream.send item.target item.envelope p.now answers
        { s with
          upstream := upstream
          pass := some (p.after delivery cursor rest)
          sent := s.sent ++ (upstream.log.drop s.upstream.log.length).map fun e => (record.ack, e) }

/-- The end of `drain_once`, when the commit succeeds or not. -/
def finish (s : Proxy) (ok : Bool) : Proxy :=
  match s.pass with
  | none => s
  | some p =>
    if p.batch.isEmpty then
      match p.delivered with
      | some cursor =>
        { s with
          pass := none
          spool := { s.spool with cursor := if ok then cursor else s.spool.cursor } }
      | none => { s with pass := none }
    else s

/-- A crash, and the restart after it. A request that gets no answer may have pushed a
record; of the records that are not synced, the first `keep` of all survive. -/
def crash (s : Proxy) (pushed : Option Bytes) (keep : ℕ) : Proxy :=
  let written := s.spool.records ++ pushed.toList.map (Record.mk none)
  let records := written.take (max s.spool.synced keep)
  { s with
    upstream := { s.upstream with limits := .default }
    pass := none
    spool := { s.spool with records := records, synced := records.length } }

/-! ## Runs -/

inductive Event where
  | ingest (r : Request) (now : ℕ) (fresh : Text) (v : Verdicts)
  | peek (now : ℕ)
  | deliver (answers : ℕ → Answer)
  | finish (ok : Bool)
  | crash (pushed : Option Bytes) (keep : ℕ)

def step (s : Proxy) : Event → Proxy
  | .ingest r now fresh v => (s.ingest config r now fresh v).2
  | .peek now => s.peek now
  | .deliver answers => s.deliver answers
  | .finish ok => s.finish ok
  | .crash pushed keep => s.crash pushed keep

/-! ## The promise -/

/-- An answer for good: below 400, or a 4xx other than 429. -/
def settles : Answer → Bool
  | .ok response => response.status < 400 || (response.status < 500 && response.status != 429)
  | .error _ => false

/-- The item was in the body of a request that upstream answered for good. -/
def Settled (s : Proxy) (a : ℕ × Item) : Prop :=
  ∃ request answer, (some a.1, request, answer) ∈ s.sent ∧ settles answer = true ∧
    ∃ env : Envelope, request.body = env.toBytes ∧ a.2 ∈ env.items

/-- The item is in the record. -/
def Within (a : ℕ × Item) (r : Record) : Prop :=
  r.ack = some a.1 ∧ ∃ o : Outbound, r.bytes = o.encode ∧ o.envelope.Framed ∧
    a.2 ∈ o.envelope.items

/-- The item is in a synced record that is not consumed. -/
def Waits (s : Proxy) (a : ℕ × Item) : Prop :=
  ∃ i r, s.spool.cursor ≤ i ∧ i < s.spool.synced ∧ s.spool.records[i]? = some r ∧ Within a r

def Kept (s : Proxy) : Prop := ∀ a ∈ s.acked, s.Waits a ∨ s.Settled a

/-- The request gets as far as the push. -/
def Queues (s : Proxy) (r : Request) (now : ℕ) (fresh : Text) (v : Verdicts) : Prop :=
  v.authorized = true ∧ s.upstream.limits.clientHeader now = none ∧ v.admitted = true ∧
    v.accepted = true ∧ (config.routes.resolve r.key r.project).isSome = true ∧
    ∃ env, r.parsed fresh = .ok env ∧
      (config.applyPolicy env (env.eventId.getD fresh)).isEmpty = false

/-- The steps that lose nothing: a push is stored and synced, and a record that was
acknowledged is sent while none of its items is limited and not put off with 429. -/
def Fair (s : Proxy) : Event → Prop
  | .ingest r now fresh v => s.Queues config r now fresh v → v.push = .stored ∧ v.sync = true
  | .deliver answers => ∀ p cursor record rest o, s.pass = some p →
      p.batch = (cursor, record) :: rest → record.ack.isSome = true →
      Outbound.decode record.bytes = some o →
      (∀ item ∈ o.envelope.items, s.upstream.limits.isLimited item.itemType p.now = false) ∧
        NoBackoff answers
  | .peek _ => True
  | .finish _ => True
  | .crash _ _ => True

/-! ## What fair runs keep -/

/-- The first `k` records are consumed or settled, and the batch goes on from there. -/
structure Pass.Tracks (p : Pass) (s : Proxy) (k : ℕ) : Prop where
  le : s.spool.cursor ≤ k
  le_length : k ≤ s.spool.records.length
  delivered : p.delivered.getD s.spool.cursor = k
  batch : ∀ j e, p.batch[j]? = some e → e.1 = k + j + 1 ∧ s.spool.records[k + j]? = some e.2
  settled : ∀ i r, s.spool.cursor ≤ i → i < k → s.spool.records[i]? = some r →
    ∀ a, Within a r → s.Settled a

structure Inv (s : Proxy) : Prop where
  synced : s.spool.synced = s.spool.records.length
  cursor : s.spool.cursor ≤ s.spool.records.length
  kept : s.Kept
  pass : ∀ p, s.pass = some p → ∃ k, Pass.Tracks p s k

variable {config}

theorem inv_start : Inv .start :=
  ⟨rfl, le_rfl, by simp [Kept, start], by simp [start]⟩

/-- More records, synced at once, and more requests. -/
structure Grows (s s' : Proxy) : Prop where
  records : ∃ more, s'.spool.records = s.spool.records ++ more
  synced : s'.spool.synced = s'.spool.records.length
  cursor : s'.spool.cursor = s.spool.cursor
  sent : ∀ e ∈ s.sent, e ∈ s'.sent

variable {s s' : Proxy}

theorem Grows.get (h : Grows s s') {i : ℕ} {r : Record} (hr : s.spool.records[i]? = some r) :
    s'.spool.records[i]? = some r := by
  obtain ⟨more, hmore⟩ := h.records
  rw [hmore, List.getElem?_append_left (List.getElem?_eq_some_iff.mp hr).1, hr]

theorem Grows.length_le (h : Grows s s') :
    s.spool.records.length ≤ s'.spool.records.length := by
  obtain ⟨more, hmore⟩ := h.records
  rw [hmore, List.length_append]
  omega

theorem Grows.settled (h : Grows s s') {a : ℕ × Item} (ha : s.Settled a) : s'.Settled a := by
  obtain ⟨request, answer, hmem, hrest⟩ := ha
  exact ⟨request, answer, h.sent _ hmem, hrest⟩

theorem Grows.waits (h : Grows s s') {a : ℕ × Item} (ha : s.Waits a) : s'.Waits a := by
  obtain ⟨i, r, hi, -, hr, hwithin⟩ := ha
  have hr' := h.get hr
  exact ⟨i, r, h.cursor ▸ hi, h.synced ▸ (List.getElem?_eq_some_iff.mp hr').1, hr', hwithin⟩

theorem Grows.tracks (h : Grows s s') {p : Pass} {k : ℕ} (hp : Pass.Tracks p s k) :
    Pass.Tracks p s' k where
  le := h.cursor ▸ hp.le
  le_length := hp.le_length.trans h.length_le
  delivered := h.cursor ▸ hp.delivered
  batch := fun j e he => ⟨(hp.batch j e he).1, h.get (hp.batch j e he).2⟩
  settled := by
    intro i r hi hik hr a ha
    have hlt : i < s.spool.records.length := hik.trans_le hp.le_length
    have hr' := h.get (List.getElem?_eq_getElem hlt)
    rw [hr, Option.some.injEq] at hr'
    exact h.settled (hp.settled i r (h.cursor ▸ hi) hik
      (hr' ▸ List.getElem?_eq_getElem hlt) a ha)

theorem framed_of_parsed {r : Request} {fresh : Text} {env : Envelope}
    (h : r.parsed fresh = .ok env) : env.Framed := by
  unfold Request.parsed at h
  split at h
  · exact framed_of_parse h
  · cases h
    exact framed_wrapStorePayload fresh r.length_lt

/-- What a request does to the state: nothing, or it acknowledges the items that are kept
and, if all goes well, queues them. -/
theorem ingest_cases (s : Proxy) (r : Request) (now : ℕ) (fresh : Text) (v : Verdicts) :
    (s.ingest config r now fresh v).2 = s ∨
      s.Queues config r now fresh v ∧ ∃ target env, Envelope.Framed env ∧ env.isEmpty = false ∧
        (s.ingest config r now fresh v).2 = s.enqueue (some target) env v := by
  rw [ingest]
  cases hauthorized : v.authorized with
  | false => exact .inl rfl
  | true =>
    cases hlimit : s.upstream.limits.clientHeader now with
    | some header => exact .inl rfl
    | none =>
      cases hparsed : r.parsed fresh with
      | error e => exact .inl rfl
      | ok env =>
        cases hadmitted : v.admitted with
        | false => exact .inl rfl
        | true =>
          simp only [Bool.not_true, Bool.false_eq_true, if_false]
          by_cases hsink : (!env.isEmpty && !v.accepted) = true
          · rw [if_pos hsink]
            exact .inl rfl
          · rw [if_neg hsink]
            cases htarget : config.routes.resolve r.key r.project with
            | none => exact .inl rfl
            | some target =>
              set kept := config.applyPolicy env (env.eventId.getD fresh) with hkept
              by_cases hempty : kept.isEmpty = true
              · refine .inl ?_
                show s.enqueue (some target) kept v = s
                rw [enqueue]
                simp only
                rw [if_pos hempty]
              · rw [Bool.not_eq_true] at hempty
                have hitems : env.isEmpty = false := by
                  cases hitems : env.items with
                  | nil =>
                    rw [hkept, SentryConfig.applyPolicy, Envelope.isEmpty, Envelope.retainItems,
                      hitems] at hempty
                    cases hempty
                  | cons item items => rw [Envelope.isEmpty, hitems, List.isEmpty_cons]
                have haccepted : v.accepted = true := by simpa [hitems] using hsink
                exact .inr ⟨⟨hauthorized, hlimit, hadmitted, haccepted, by rw [htarget]; rfl, env,
                  hparsed, hempty⟩, target, kept, (framed_of_parsed hparsed).retainItems _,
                  hempty, rfl⟩

theorem Inv.ingest (h : s.Inv) {r : Request} {now : ℕ} {fresh : Text} {v : Verdicts}
    (hfair : s.Fair config (.ingest r now fresh v)) : (s.ingest config r now fresh v).2.Inv := by
  rcases ingest_cases s r now fresh v with heq | ⟨hqueues, target, env, hframed, hempty, heq⟩
  · rw [heq]
    exact h
  · obtain ⟨hpush, hsync⟩ := hfair hqueues
    rw [heq]
    set record : Record := ⟨some s.acked.length, Outbound.encode ⟨target, env⟩⟩
    have hs' : s.enqueue (some target) env v
        = { s with
          acked := s.acked ++ env.items.map fun item => (s.acked.length, item)
          spool := { s.spool with
            records := s.spool.records ++ [record]
            synced := (s.spool.records ++ [record]).length } } := by
      rw [enqueue]
      simp only [hempty, Bool.false_eq_true, if_false, hpush, hsync, if_true]
      rfl
    set s' := s.enqueue (some target) env v
    have hrecords : s'.spool.records = s.spool.records ++ [record] := by rw [hs']
    have hgrows : Grows s s' :=
      ⟨⟨[record], hrecords⟩, by rw [hs'], by rw [hs'], by rw [hs']; exact fun e he => he⟩
    refine ⟨hgrows.synced, ?_, ?_, ?_⟩
    · rw [hgrows.cursor]
      exact h.cursor.trans hgrows.length_le
    · intro a ha
      have hacked : s'.acked = s.acked ++ env.items.map fun item => (s.acked.length, item) := by
        rw [hs']
      rw [hacked] at ha
      rcases List.mem_append.mp ha with ha | ha
      · exact (h.kept a ha).imp hgrows.waits hgrows.settled
      · obtain ⟨item, hitem, rfl⟩ := List.mem_map.mp ha
        have hlast : s'.spool.records[s.spool.records.length]? = some record := by
          rw [hrecords]
          exact List.getElem?_concat_length
        refine .inl ⟨s.spool.records.length, record, ?_, ?_, hlast, rfl, ⟨target, env⟩, rfl,
          hframed, hitem⟩
        · rw [hgrows.cursor]
          exact h.cursor
        · rw [hgrows.synced]
          exact (List.getElem?_eq_some_iff.mp hlast).1
    · intro p hp
      rw [hs'] at hp
      obtain ⟨k, hk⟩ := h.pass p hp
      exact ⟨k, hgrows.tracks hk⟩

theorem Inv.peek (h : s.Inv) (now : ℕ) : (s.peek now).Inv := by
  unfold Proxy.peek
  split
  · exact h
  · refine ⟨h.synced, h.cursor, h.kept, ?_⟩
    intro p hp
    rw [Option.some.injEq] at hp
    subst hp
    refine ⟨s.spool.cursor, le_rfl, h.cursor, rfl, ?_, fun i r hi hik => ?_⟩
    swap
    · exact absurd hik (Nat.not_lt.mpr hi)
    intro j e he
    simp only [Spool.peek, List.getElem?_map, Option.map_eq_some_iff] at he
    obtain ⟨x, hx, rfl⟩ := he
    rw [List.getElem?_take] at hx
    split at hx
    · rw [List.getElem?_drop, List.getElem?_zipIdx, Option.map_eq_some_iff] at hx
      obtain ⟨r, hr, rfl⟩ := hx
      exact ⟨by simp, hr⟩
    · cases hx

/-- A record is consumed unless it could not be delivered or upstream had an error. -/
theorem Pass.after_cases (p : Pass) (delivery : Delivery) (cursor : ℕ)
    (rest : List (ℕ × Record)) :
    p.after delivery cursor rest = { p with batch := [] } ∨
      p.after delivery cursor rest = { p with batch := rest, delivered := some cursor } ∧
        (delivery = .rateLimited ∨ delivery = .nothing ∨
          ∃ status < 500, delivery = .sent status) := by
  cases delivery with
  | failed message => exact .inl rfl
  | rateLimited => exact .inr ⟨rfl, .inl rfl⟩
  | nothing => exact .inr ⟨rfl, .inr (.inl rfl)⟩
  | sent status =>
    by_cases hstatus : 500 ≤ status
    · exact .inl (if_pos hstatus)
    · refine .inr ⟨?_, .inr (.inr ⟨status, by omega, rfl⟩)⟩
      unfold Pass.after
      simp only [if_neg hstatus, ite_self]

/-- A record of the batch is left where it is or consumed, and the items of one that is
consumed are settled. -/
theorem deliver_cases {p : Pass} {cursor : ℕ} {record : Record} {rest : List (ℕ × Record)}
    (hp : s.pass = some p) (hbatch : p.batch = (cursor, record) :: rest) {answers : ℕ → Answer}
    (hfair : s.Fair config (.deliver answers)) :
    ∃ upstream sent pass, s.deliver answers
        = { s with upstream := upstream, pass := some pass, sent := s.sent ++ sent } ∧
      (pass = { p with batch := [] } ∨
        pass = { p with batch := rest, delivered := some cursor } ∧
        ∀ a, Within a record → (s.deliver answers).Settled a) := by
  cases hdecode : Outbound.decode record.bytes with
  | none =>
    refine ⟨s.upstream, [], _, ?_, .inr ⟨rfl, ?_⟩⟩
    · rw [deliver, hp]
      simp only [hbatch, hdecode, List.append_nil]
    · rintro a ⟨-, o, hbytes, hframed, -⟩
      obtain ⟨o', ho', -⟩ := Outbound.decode_encode hframed
      rw [hbytes, ho'] at hdecode
      cases hdecode
  | some o =>
    set result := s.upstream.send o.target o.envelope p.now answers with hresult
    have hdeliver : s.deliver answers = { s with
        upstream := result.2
        pass := some (p.after result.1 cursor rest)
        sent := s.sent ++ (result.2.log.drop s.upstream.log.length).map
          fun e => (record.ack, e) } := by
      rw [deliver, hp]
      simp only [hbatch, hdecode]
      rfl
    refine ⟨result.2, _, _, hdeliver, ?_⟩
    rcases Pass.after_cases p result.1 cursor rest with hleave | ⟨hconsume, hdelivery⟩
    · exact .inl hleave
    · refine .inr ⟨hconsume, ?_⟩
      rintro a ⟨hack, o', hbytes, hframed, hitem⟩
      -- what is read back has the items that were acknowledged
      obtain ⟨o'', ho'', hitems⟩ := Outbound.decode_encode hframed
      rw [hbytes, ho'', Option.some.injEq] at hdecode
      subst hdecode
      obtain ⟨hlimits, hback⟩ := hfair p cursor record rest o'' hp hbatch (by rw [hack]; rfl)
        (by rw [hbytes, ho''])
      have hempty : o''.envelope.isEmpty = false := by
        rw [Envelope.isEmpty, hitems, List.isEmpty_eq_false_iff_exists_mem]
        exact ⟨a.2, hitem⟩
      obtain ⟨hlimited, hnothing, more, hlog, hsent⟩ :=
        Upstream.send_eq o''.target hlimits hempty hback
      rcases hdelivery with hd | hd | ⟨status, hlt, hd⟩
      · exact absurd hd hlimited
      · exact absurd hd hnothing
      · obtain ⟨hne, response, hmem, hstatus⟩ := hsent status hd
        refine ⟨Upstream.requestOf o''.target o''.envelope, .ok response, ?_, ?_, o''.envelope,
          rfl, hitems ▸ hitem⟩
        · rw [hdeliver]
          refine List.mem_append_right _ (List.mem_map.mpr ⟨_, ?_, by rw [hack]⟩)
          rw [hresult, hlog, List.drop_left]
          exact hmem
        · simp only [settles, hstatus, Bool.or_eq_true, Bool.and_eq_true, decide_eq_true_eq,
            bne_iff_ne]
          exact .inr ⟨hlt, hne⟩

theorem Inv.deliver (h : s.Inv) {answers : ℕ → Answer} (hfair : s.Fair config (.deliver answers)) :
    (s.deliver answers).Inv := by
  cases hp : s.pass with
  | none =>
    rw [Proxy.deliver, hp]
    exact h
  | some p =>
    cases hbatch : p.batch with
    | nil =>
      rw [Proxy.deliver, hp]
      simp only [hbatch]
      exact h
    | cons e rest =>
      obtain ⟨cursor, record⟩ := e
      obtain ⟨upstream, sent, pass, hdeliver, hpass⟩ := deliver_cases hp hbatch hfair
      obtain ⟨k, hk⟩ := h.pass p hp
      set s' := s.deliver answers
      have hspool : s'.spool = s.spool := by rw [hdeliver]
      have hgrows : Grows s s' := by
        refine ⟨⟨[], by rw [hspool, List.append_nil]⟩, by rw [hspool, h.synced], by rw [hspool], ?_⟩
        rw [hdeliver]
        exact fun e he => List.mem_append_left _ he
      refine ⟨hgrows.synced, by rw [hspool]; exact h.cursor, ?_, ?_⟩
      · have hacked : s'.acked = s.acked := by rw [hdeliver]
        intro a ha
        rw [hacked] at ha
        exact (h.kept a ha).imp hgrows.waits hgrows.settled
      · intro p' hp'
        rw [hdeliver, Option.some.injEq] at hp'
        subst hp'
        have hk' := hgrows.tracks hk
        rcases hpass with rfl | ⟨rfl, hsettled⟩
        · exact ⟨k, hk'.le, hk'.le_length, hk'.delivered, by simp, hk'.settled⟩
        · obtain ⟨hcursor, hrecord⟩ := hk'.batch 0 (cursor, record) (by rw [hbatch]; rfl)
          refine ⟨k + 1, ?_, ?_, hcursor, ?_, ?_⟩
          · exact hk'.le.trans (Nat.le_succ k)
          · exact (List.getElem?_eq_some_iff.mp hrecord).1
          · intro j e he
            have hnext := hk'.batch (j + 1) e (by rw [hbatch]; exact he)
            rw [show k + 1 + j = k + (j + 1) by omega]
            exact hnext
          · intro i r hi hik hr a ha
            rcases Nat.lt_succ_iff_lt_or_eq.mp hik with hik | rfl
            · exact hk'.settled i r hi hik hr a ha
            · rw [Nat.add_zero, hr, Option.some.injEq] at hrecord
              have hr' : r = record := hrecord
              exact hsettled a (hr' ▸ ha)

theorem Inv.finish (h : s.Inv) (ok : Bool) : (s.finish ok).Inv := by
  cases hp : s.pass with
  | none =>
    rw [Proxy.finish, hp]
    exact h
  | some p =>
    rw [Proxy.finish, hp]
    simp only
    split
    · obtain ⟨k, hk⟩ := h.pass p hp
      cases hdelivered : p.delivered with
      | none => exact ⟨h.synced, h.cursor, h.kept, fun p hp => by cases hp⟩
      | some cursor =>
        have hcursor : cursor = k := by
          have hd := hk.delivered
          rw [hdelivered] at hd
          exact hd
        cases ok with
        | false => exact ⟨h.synced, h.cursor, h.kept, fun p hp => by cases hp⟩
        | true =>
          refine ⟨h.synced, hcursor ▸ hk.le_length, ?_, fun p hp => by cases hp⟩
          intro a ha
          rcases h.kept a ha with ⟨i, r, hi, hlt, hr, hwithin⟩ | hsettled
          · -- what lies before the new cursor has been settled in this pass
            by_cases hik : i < k
            · exact .inr (hk.settled i r hi hik hr a hwithin)
            · refine .inl ⟨i, r, ?_, hlt, hr, hwithin⟩
              show cursor ≤ i
              omega
          · exact .inr hsettled
    · exact h

theorem Inv.crash (h : s.Inv) (pushed : Option Bytes) (keep : ℕ) : (s.crash pushed keep).Inv := by
  set s' := s.crash pushed keep
  have hgrows : Grows s s' := by
    refine ⟨⟨(pushed.toList.map (Record.mk none)).take (max s.spool.synced keep
      - s.spool.records.length), ?_⟩, rfl, rfl, fun e he => he⟩
    show List.take _ _ = _
    rw [List.take_append, List.take_of_length_le]
    rw [h.synced]
    exact le_max_left _ _
  refine ⟨rfl, h.cursor.trans hgrows.length_le, ?_, fun p hp => by cases hp⟩
  exact fun a ha => (h.kept a ha).imp hgrows.waits hgrows.settled

theorem Inv.step (h : s.Inv) {e : Event} (hfair : s.Fair config e) : (s.step config e).Inv := by
  cases e with
  | ingest r now fresh v => exact h.ingest hfair
  | peek now => exact h.peek now
  | deliver answers => exact h.deliver hfair
  | finish ok => exact h.finish ok
  | crash pushed keep => exact h.crash pushed keep

end Proxy

/-- In every run of requests, passes and crashes whose steps are fair, an item that was
acknowledged waits in a synced record or was in a request answered for good. -/
theorem acked_items_kept (config : SentryConfig) (events : List Proxy.Event)
    (h : Runs.Meets (Proxy.step config) (Proxy.Fair config) .start events) :
    (Runs.run (Proxy.step config) .start events).Kept :=
  (h.invariant (fun _ _ hs hfair => hs.step hfair) Proxy.inv_start).kept

/-! ## Examples -/

def exampleConfig : SentryConfig where
  routes := ⟨.resign, some ⟨"https".toList, "key".toList, "sentry.io".toList, "1".toList⟩, []⟩
  forwardEvents := true
  transactionSampleRate := 1
  forwardAttachments := false
  forwardUnknown := true

def exampleRequest : Request where
  project := "7".toList
  endpoint := .store
  key := "key".toList
  body := [123, 125]
  length_lt := by decide

/-- A request whose push and sync end as they do. -/
def exampleIngest (push : PushOutcome) (sync : Bool) : Proxy.Event :=
  .ingest exampleRequest 100 "id".toList ⟨true, true, true, push, sync⟩

def exampleAnswer (status : ℕ) (headers : List (Text × Text)) : ℕ → Answer :=
  fun _ => .ok ⟨status, headers, []⟩

/-- A pass over one record. -/
def examplePass (answers : ℕ → Answer) : List Proxy.Event :=
  [.peek 100, .deliver answers, .finish true]

open Proxy in
theorem acked_items_kept_example :
    Runs.Meets (step exampleConfig) (Fair exampleConfig) .start
        (exampleIngest .stored true :: examplePass (exampleAnswer 200 [])) ∧
      (Runs.run (step exampleConfig) .start
        (exampleIngest .stored true :: examplePass (exampleAnswer 200 []))).Kept := by
  have hfair : Runs.Meets (step exampleConfig) (Fair exampleConfig) .start
      (exampleIngest .stored true :: examplePass (exampleAnswer 200 [])) := by
    refine ⟨fun _ => ⟨rfl, rfl⟩, trivial, ?_, trivial, trivial⟩
    intro p cursor record rest o _ _ _ _
    exact ⟨fun item _ => rfl, fun k _ _ => by simp [exampleAnswer, Answer.status?]⟩
  exact ⟨hfair, acked_items_kept _ _ hfair⟩

/-- An acknowledgement that is in no waiting record and was answered for good by no one. -/
def Proxy.loses (s : Proxy) (ack : ℕ) : Bool :=
  s.acked.any (fun a => a.1 == ack) &&
    ((s.spool.records.take s.spool.synced).drop s.spool.cursor).all (fun r => r.ack != some ack) &&
    s.sent.all fun e => e.1 != some ack || !settles e.2.2

theorem Proxy.not_kept_of_loses {s : Proxy} {ack : ℕ} (h : s.loses ack = true) : ¬ s.Kept := by
  intro hkept
  simp only [loses, Bool.and_eq_true, List.any_eq_true, List.all_eq_true, Bool.or_eq_true,
    bne_iff_ne, beq_iff_eq, Bool.not_eq_true'] at h
  obtain ⟨⟨⟨a, ha, rfl⟩, hrecords⟩, hsent⟩ := h
  rcases hkept a ha with ⟨i, r, hi, hlt, hr, hack, -⟩ | ⟨request, answer, hmem, hsettles, -⟩
  · refine hrecords r ?_ hack
    have hget : ((s.spool.records.take s.spool.synced).drop s.spool.cursor)[i - s.spool.cursor]?
        = some r := by
      rw [List.getElem?_drop, Nat.add_sub_cancel' hi, List.getElem?_take_of_lt hlt, hr]
    exact List.mem_of_getElem? hget
  · rcases hsent _ hmem with hne | hnot
    · exact hne rfl
    · rw [hsettles] at hnot
      cases hnot

open Proxy in
/-- The push finds the spool full; the sync fails, and a crash takes the record; upstream puts
the record off; and an answer to the first record limits the items of the second. -/
theorem acked_item_lost :
    ¬ (Runs.run (step exampleConfig) .start [exampleIngest .full true]).Kept ∧
      ¬ (Runs.run (step exampleConfig) .start
        [exampleIngest .stored false, .crash none 0]).Kept ∧
      ¬ (Runs.run (step exampleConfig) .start
        (exampleIngest .stored true :: examplePass (exampleAnswer 429 []))).Kept ∧
      ¬ (Runs.run (step exampleConfig) .start
        ([exampleIngest .stored true, exampleIngest .stored true, .peek 100,
          .deliver (exampleAnswer 200 [("X-Sentry-Rate-Limits".toList, "60::".toList)]),
          .deliver (exampleAnswer 200 []), .finish true])).Kept :=
  ⟨@not_kept_of_loses _ 0 (by decide +kernel),
    @not_kept_of_loses _ 0 (by decide +kernel),
    @not_kept_of_loses _ 0 (by decide +kernel),
    @not_kept_of_loses _ 1 (by decide +kernel)⟩

end LogLess.Sentry
