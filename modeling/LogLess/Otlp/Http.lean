import LogLess.Auth.Admit
import LogLess.Httpd
import LogLess.Lib.Varint

/-!
# The OTLP listener over HTTP

What `OtlpHandler` answers a request, and what it counts. What decodes the two encodings, what the
verifier says and what the pipeline does with a batch are parameters.

`exact_iff`: every request for logs is counted once, and another one is counted only if its
body is refused.
-/

namespace LogLess.Otlp

open Counting (Counted Ledger count amount)
open Frames (Bytes)
open Httpd (Incoming Reply Reject BodyRead Handler Service Visit)

/-- The counters of both OTLP listeners. -/
inductive Counter where
  | requests
  | records
  | accepted
  | rejected
  | badRequest
  | tooLarge
  | droppedUpstream
  | unauthorized
deriving DecidableEq

/-- What `accounts_for_everything` compares. A refused credential is a bad request here. -/
def ledger : Ledger Counter where
  requests := .requests
  outcomes := [.accepted, .rejected, .badRequest, .tooLarge]

namespace rpc

def invalidArgument : ℕ := 3
def permissionDenied : ℕ := 7
def unauthenticated : ℕ := 16
def resourceExhausted : ℕ := 8
def unavailable : ℕ := 14
def unimplemented : ℕ := 12

end rpc

def retryAfterSecs : String := "1"

def protoContentType : Text := "application/x-protobuf".toList

def jsonContentType : Text := "application/json".toList

def logsPath : Text := "/v1/logs".toList

/-- `google.rpc.Status`: its code and its message. -/
def statusProto (code : ℕ) (message : Text) : Bytes :=
  let bytes := Utf8.encode message
  0x08 :: Varint.encode 10 code ++ 0x12 :: Varint.encode 10 bytes.length ++ bytes

def statusReply (httpStatus rpcCode : ℕ) (message : Text) : Reply :=
  ⟨httpStatus, protoContentType, statusProto rpcCode message, []⟩

def jsonStatusReply (httpStatus : ℕ) (message : Text) : Reply :=
  .json httpStatus ("\x7b\"code\":".toList ++ Decimal.ofNat httpStatus ++ ",\"message\":\"".toList
    ++ message.map (fun c => if c = '"' then '\'' else c) ++ "\"\x7d".toList)

/-- What a batch came to. -/
inductive Accepted where
  | all
  | rejected
deriving DecidableEq

/-- Why a credential is refused, as far as the reply depends on it. -/
inductive Refusal where
  | missing
  | other
deriving DecidableEq

structure Decoded where
  records : List LogRecord
  droppedUpstream : ℕ
deriving DecidableEq

/-- How the listener was started. -/
structure Listener where
  /-- It is bound to a loopback address. -/
  loopback : Bool
  requireAuth : Bool
deriving DecidableEq

/-- What the rest of the process says while a request is answered. -/
structure Process where
  authorize : Bool → Option Text → Except Refusal Auth.Principal
  verifier : Auth.Verifier
  decodeJson : Bytes → Except Text Decoded
  decodeProto : Bytes → Except Text Decoded
  sink : List LogRecord → Accepted

namespace Listener

variable (l : Listener) (p : Process) (r : Incoming)

/-- The key in the header, if there is one header. -/
def bearer : Option Text :=
  (((r.header "authorization").filter fun _ => r.headerCount "authorization" = 1).bind fun v =>
    ("Bearer ".toList.isPrefixOf? v).or ("bearer ".toList.isPrefixOf? v)).map Text.trim

def principal : Counted Counter (Except Reply Auth.Principal) :=
  match p.authorize l.requireAuth (bearer r) with
  | .ok principal => return .ok principal
  | .error reason => do
    count .unauthorized 1
    let message := "the credential is not accepted".toList
    let denied :=
      if reason = .missing then statusReply 401 rpc.unauthenticated message
      else statusReply 403 rpc.permissionDenied message
    return .error (denied.withHeader "WWW-Authenticate" "Bearer")

/-- The body in the encoding its type names. -/
def decode (json : Bool) : Except Text Decoded :=
  if json then p.decodeJson r.body else p.decodeProto r.body

def malformed (json : Bool) (e : Text) : Reply :=
  if json then jsonStatusReply 400 ("malformed OTLP/JSON: ".toList ++ e)
  else statusReply 400 rpc.invalidArgument ("malformed OTLP: ".toList ++ e)

/-- The records under the tenant of the principal, without those it may not write. -/
def submit (principal : Auth.Principal) (json : Bool) (records : List LogRecord) :
    Counted Counter Reply :=
  match p.verifier.admitBatch principal records attrIndex false with
  | (_, .error _) => do
    count .badRequest 1
    count .unauthorized 1
    let message := "a record names a tenant other than this credential's".toList
    return if json then jsonStatusReply 403 message
      else statusReply 403 rpc.permissionDenied message
  | (records, .ok _) =>
    match p.sink records with
    | .all => do
      count .accepted 1
      count .records records.length
      return if json then .json 200 "\x7b\x7d".toList else ⟨200, protoContentType, [], []⟩
    | .rejected => do
      count .rejected 1
      let message := "pipeline full, retry".toList
      let busy :=
        if json then jsonStatusReply 503 message else statusReply 503 rpc.unavailable message
      return busy.withHeader "Retry-After" retryAfterSecs

def handle : Counted Counter Reply :=
  if r.method ≠ .post then return statusReply 405 rpc.unimplemented "only POST is supported".toList
  else if r.path ≠ logsPath then
    -- A probe is not a request for logs.
    return statusReply 404 rpc.unimplemented "only /v1/logs is implemented".toList
  else do
    count .requests 1
    match ← l.principal p r with
    | .error denied => do
      count .badRequest 1
      return denied
    | .ok principal =>
      let json := decide (r.contentType = jsonContentType)
      match decode p r json with
      | .error e => do
        count .badRequest 1
        return malformed json e
      | .ok decoded => do
        count .droppedUpstream decoded.droppedUpstream
        submit p principal json decoded.records

/-- The chain of `preflight`. -/
def refusal : Counted Counter (Option Reply) :=
  if l.loopback = true ∧ !Httpd.loopbackHost r then
    return some (statusReply 403 rpc.permissionDenied
      "the Host header is not a loopback name".toList)
  else do
    match ← l.principal p r with
    | .error denied => return some denied
    | .ok _ =>
      return if r.headerCount "content-type" ≠ 1 ∨
          (r.contentType ≠ protoContentType ∧ r.contentType ≠ jsonContentType) then
        some (statusReply 415 rpc.invalidArgument
          "send application/x-protobuf or application/json".toList)
      else if !Httpd.encodingAccepted r then
        some (statusReply 415 rpc.invalidArgument
          "Content-Encoding must be gzip or absent".toList)
      else none

def preflight : Counted Counter (Option Reply) :=
  if r.method ≠ .post ∨ r.path ≠ logsPath then return none
  else do
    match ← l.refusal p r with
    | none => return none
    | some refused => do
      count .requests 1
      count .badRequest 1
      return some refused

def reject (reason : Reject) : Counted Counter Reply := do
  count .requests 1
  match reason with
  | .tooLarge => do
    count .tooLarge 1
    return statusReply 413 rpc.resourceExhausted "body exceeds the configured limit".toList
  | .unreadable e => do
    count .badRequest 1
    return statusReply 400 rpc.invalidArgument ("cannot read body: ".toList ++ e)

def handler : Handler Counter := ⟨l.preflight p, l.handle p, reject⟩

/-! ## What is counted -/

/-- The answers of `principal`: a refusal is counted beside the ledger. -/
theorem principal_cases :
    (∃ principal, l.principal p r = ⟨[], some (.ok principal)⟩) ∨
      ∃ denied, l.principal p r = ⟨[(.unauthorized, 1)], some (.error denied)⟩ := by
  rw [principal]
  cases p.authorize l.requireAuth (bearer r) with
  | ok principal => exact .inl ⟨principal, rfl⟩
  | error reason => exact .inr ⟨_, rfl⟩

theorem exits_submit (principal : Auth.Principal) (json : Bool) (records : List LogRecord) :
    ∃ log reply, submit p principal json records = ⟨log, some reply⟩ ∧ ledger.Exits log := by
  rw [submit]
  split
  · exact ⟨_, _, rfl, rfl, rfl⟩
  · next kept _ _ =>
    cases p.sink kept with
    | all => exact ⟨_, _, rfl, rfl, rfl⟩
    | rejected => exact ⟨_, _, rfl, rfl, rfl⟩

/-- The method and the path of a request for logs. -/
def isLogs : Bool := r.method = .post ∧ r.path = logsPath

theorem handle_once (h : isLogs r = true) :
    ∃ log reply, l.handle p r = ⟨log, some reply⟩ ∧ ledger.Once log := by
  obtain ⟨hpost, hpath⟩ := of_decide_eq_true h
  rw [handle, if_neg (not_not_intro hpost), if_neg (not_not_intro hpath)]
  obtain ⟨principal, hprincipal⟩ | ⟨denied, hprincipal⟩ := l.principal_cases p r
  · rw [hprincipal, Counting.count_bind, Counting.bind_quiet]
    simp only
    cases decode p r (decide (r.contentType = jsonContentType)) with
    | error e => exact ⟨_, _, rfl, rfl, rfl⟩
    | ok decoded =>
      obtain ⟨log, reply, hsubmit, hexits⟩ :=
        exits_submit p principal (decide (r.contentType = jsonContentType)) decoded.records
      simp only [Counting.count_bind, hsubmit]
      exact ⟨_, _, rfl, (hexits.beside ⟨rfl, rfl⟩).once ⟨rfl, rfl⟩⟩
  · rw [hprincipal]
    exact ⟨_, _, rfl, rfl, rfl⟩

theorem handle_of_other (h : isLogs r = false) : ∃ reply, l.handle p r = ⟨[], some reply⟩ := by
  rw [handle]
  by_cases hpost : r.method = .post
  · rw [if_neg (not_not_intro hpost)]
    have hpath : r.path ≠ logsPath := fun hpath => of_decide_eq_false h ⟨hpost, hpath⟩
    rw [if_pos hpath]
    exact ⟨_, rfl⟩
  · rw [if_pos hpost]
    exact ⟨_, rfl⟩

/-- What `preflight` makes of the head of a request for logs. -/
inductive Head : Counted Counter (Option Reply) → Prop
  | refused (log : List (Counter × ℕ)) (reply : Reply) (h : ledger.Once log) :
    Head ⟨log, some (some reply)⟩
  | passed : Head ⟨[], some none⟩

theorem head_preflight (h : isLogs r = true) : Head (l.preflight p r) := by
  obtain ⟨hpost, hpath⟩ := of_decide_eq_true h
  have hlogs : ¬ (r.method ≠ .post ∨ r.path ≠ logsPath) := fun hor =>
    hor.elim (fun hmethod => hmethod hpost) fun hother => hother hpath
  rw [preflight, if_neg hlogs, refusal]
  split
  · exact .refused _ _ ⟨rfl, rfl⟩
  · obtain ⟨principal, hprincipal⟩ | ⟨denied, hprincipal⟩ := l.principal_cases p r
    · rw [hprincipal, Counting.bind_quiet]
      simp only
      split
      · exact .refused _ _ ⟨rfl, rfl⟩
      · split
        · exact .refused _ _ ⟨rfl, rfl⟩
        · exact .passed
    · rw [hprincipal]
      exact .refused _ _ ⟨rfl, rfl⟩

theorem preflight_of_other (h : isLogs r = false) : l.preflight p r = ⟨[], some none⟩ := by
  have hor : r.method ≠ .post ∨ r.path ≠ logsPath := by
    by_contra hnot
    exact of_decide_eq_false h ⟨of_not_not (not_or.1 hnot).1, of_not_not (not_or.1 hnot).2⟩
  rw [preflight, if_pos hor]
  rfl

theorem reject_once (reason : Reject) :
    ∃ log reply, reject reason = ⟨log, some reply⟩ ∧ ledger.Once log := by
  cases reason with
  | tooLarge => exact ⟨_, _, rfl, rfl, rfl⟩
  | unreadable why => exact ⟨_, _, rfl, rfl, rfl⟩

end Listener

/-! ## Visits -/

def service (l : Listener) : Service Counter Process := ⟨l.handler, ledger, Listener.isLogs⟩

/-- No body is refused of what is not a request for logs. -/
def fine (v : Visit Process) : Bool :=
  match v.body with
  | .rejected _ => Listener.isLogs v.head
  | _ => true

theorem exact_iff (l : Listener) (v : Visit Process) :
    (service l).Exact v ↔ fine v = true := by
  cases hlogs : Listener.isLogs v.head with
  | true =>
    have hfine : fine v = true := by
      rw [fine]
      split
      · exact hlogs
      · rfl
    have hhead := l.head_preflight v.atHead v.head hlogs
    rw [hfine]
    generalize hpreflight : l.preflight v.atHead v.head = preflight at hhead
    refine iff_of_true ?_ rfl
    cases hhead with
    | refused log reply honce =>
      exact (Service.exact_of_once
        (Service.result_of_refused (s := service l) hpreflight) honce).2 hlogs
    | passed =>
      cases hbody : v.body with
      | whole bytes =>
        have hresult := Service.result_of_whole (s := service l) hpreflight hbody
        obtain ⟨log, reply, hhandle, honce⟩ :=
          l.handle_once v.atBody (v.head.withBody bytes) hlogs
        rw [show ((service l).handler v.atBody).handle = l.handle v.atBody from rfl, hhandle]
          at hresult
        exact (Service.exact_of_once hresult honce).2 hlogs
      | rejected reason =>
        have hresult := Service.result_of_rejected (s := service l) hpreflight hbody
        obtain ⟨log, reply, hreject, honce⟩ := Listener.reject_once reason
        rw [show ((service l).handler v.atBody).reject = Listener.reject from rfl, hreject]
          at hresult
        exact (Service.exact_of_once hresult honce).2 hlogs
      | failed =>
        have hresult := Service.result_of_failed (s := service l) hpreflight hbody
        exact (Service.exact_of_unanswered hresult rfl).2 ⟨rfl, rfl⟩
  | false =>
    have hpreflight := l.preflight_of_other v.atHead v.head hlogs
    rw [fine]
    cases hbody : v.body with
    | whole bytes =>
      obtain ⟨reply, hhandle⟩ := l.handle_of_other v.atBody (v.head.withBody bytes) hlogs
      have hresult := Service.result_of_whole (s := service l) hpreflight hbody
      rw [show ((service l).handler v.atBody).handle = l.handle v.atBody from rfl, hhandle]
        at hresult
      rw [Service.exact_of_other hlogs, Service.log, hresult]
      exact iff_of_true ⟨rfl, rfl⟩ rfl
    | rejected reason =>
      have hresult := Service.result_of_rejected (s := service l) hpreflight hbody
      obtain ⟨log, reply, hreject, honce⟩ := Listener.reject_once reason
      rw [show ((service l).handler v.atBody).reject = Listener.reject from rfl, hreject]
        at hresult
      exact Service.exact_of_once hresult honce
    | failed =>
      have hresult := Service.result_of_failed (s := service l) hpreflight hbody
      exact iff_of_true ((Service.exact_of_unanswered hresult rfl).2 ⟨rfl, rfl⟩) rfl

/-- Whatever is sent, there are as many outcomes as requests. -/
theorem even_log (l : Listener) (v : Visit Process) : ledger.Even ((service l).log v) := by
  by_cases hfine : fine v = true
  · have hexact := (exact_iff l v).2 hfine
    rw [Service.Exact] at hexact
    split at hexact
    · exact hexact.even
    · exact hexact.even
  · obtain ⟨reason, hbody, hlogs⟩ : ∃ reason, v.body = .rejected reason ∧
        Listener.isLogs v.head = false := by
      rw [fine] at hfine
      split at hfine
      · next reason hbody => exact ⟨reason, hbody, by simpa using hfine⟩
      · exact absurd rfl hfine
    have hpreflight := l.preflight_of_other v.atHead v.head hlogs
    have hresult := Service.result_of_rejected (s := service l) hpreflight hbody
    obtain ⟨log, reply, hreject, honce⟩ := Listener.reject_once reason
    rw [show ((service l).handler v.atBody).reject = Listener.reject from rfl, hreject] at hresult
    rw [Service.log, hresult]
    exact honce.even

end LogLess.Otlp
