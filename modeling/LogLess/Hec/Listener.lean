import LogLess.Auth.Admit
import LogLess.Hec.Query
import LogLess.Httpd
import LogLess.Sentry.Envelope
import Mathlib

/-!
# The listener of the event collector

What `HecHandler` answers a request, and what it counts on the way. The credential is checked twice,
with the head alone and again once the body is there, and the verifier may decide otherwise then. How
a body is parsed, what the verifier says to a token and what the pipeline does with a batch are
parameters.
-/

namespace LogLess.Hec

open Counting (Counted Ledger count)
open Frames (Bytes)
open Httpd (Incoming Reply Reject BodyRead Handler)

theorem lawfulBEq_text : LawfulBEq Text := inferInstance

-- a path in a list of paths
attribute [local instance] lawfulBEq_text

inductive Counter where
  | requests
  | records
  | accepted
  | busy
  | unauthorized
  | badRequest
  | tooLarge
  | ackQueries
deriving DecidableEq

/-- What `accounts_for_everything` compares. -/
def ledger : Ledger Counter where
  requests := .requests
  outcomes := [.accepted, .busy, .unauthorized, .badRequest, .tooLarge]

namespace code

def success : ℕ := 0
def tokenRequired : ℕ := 2
def invalidAuthorization : ℕ := 3
def invalidToken : ℕ := 4
def noData : ℕ := 5
def invalidDataFormat : ℕ := 6
def incorrectIndex : ℕ := 7
def serverBusy : ℕ := 9
def dataChannelMissing : ℕ := 10
def invalidDataChannel : ℕ := 11
def eventFieldRequired : ℕ := 12
def eventFieldBlank : ℕ := 13
def ackDisabled : ℕ := 14
def healthy : ℕ := 17

end code

def reply (status code : ℕ) (text : Text) : Reply :=
  .json status ("\x7b\"text\":\"".toList ++ text ++ "\",\"code\":".toList ++ Decimal.ofNat code
    ++ ['\x7d'])

def serverBusy : Reply :=
  (reply 503 code.serverBusy "Server is busy".toList).withHeader "Retry-After" "1"

def titleCase : Text → Text
  | first :: rest => first.toUpper :: rest
  | [] => []

inductive EventError where
  | invalidFormat
  | eventRequired
  | eventBlank
  | noData
deriving DecidableEq

def EventError.text : EventError → Text
  | invalidFormat => "invalid data format".toList
  | eventRequired => "event field is required".toList
  | eventBlank => "event field cannot be blank".toList
  | noData => "no data".toList

def EventError.code : EventError → ℕ
  | noData => code.noData
  | invalidFormat => code.invalidDataFormat
  | eventRequired => code.eventFieldRequired
  | eventBlank => code.eventFieldBlank

structure Metadata where
  host : Option Text
  source : Option Text
  sourcetype : Option Text
  index : Option Text
deriving DecidableEq

def Metadata.read (m : Metadata) (kv : Text × Text) : Metadata :=
  if kv.1 = "host".toList then { m with host := some kv.2 }
  else if kv.1 = "source".toList then { m with source := some kv.2 }
  else if kv.1 = "sourcetype".toList then { m with sourcetype := some kv.2 }
  else if kv.1 = "index".toList then { m with index := some kv.2 }
  else m

/-- There is none if the query panics. -/
def Metadata.fromQuery (query : Text) : Option Metadata :=
  (queryPairs query).map fun pairs => pairs.foldl Metadata.read ⟨none, none, none, none⟩

inductive Admitted where
  | accepted
  | busy
  | incorrectIndex
deriving DecidableEq

/-- How the listener was started. -/
structure Listener where
  /-- It accepts any token, and none. -/
  isOpen : Bool
  ackEnabled : Bool
deriving DecidableEq

/-- What the rest of the process says while a request is answered. -/
structure Process where
  /-- The verifier: whether a credential is asked for, and the one presented. -/
  authorize : Bool → Option Text → Option Auth.Principal
  verifier : Auth.Verifier
  parseBody : Bool → Bytes → Metadata → Except EventError (List LogRecord)
  hasCapacity : Text → Bool
  sink : List LogRecord → Admitted
  issue : Text → ℕ
  durable : Text → ℕ → Bool

namespace Listener

variable (l : Listener) (p : Process) (r : Incoming)

/-! ## Credentials -/

/-- The comparison is the verifier's. -/
def checkToken (token : Option Text) : Counted Counter (Except Reply Auth.Principal) :=
  match p.authorize (!l.isOpen) token with
  | some principal => return .ok principal
  | none => do
    count .unauthorized 1
    return .error (reply 403 code.invalidToken "Invalid token".toList)

def refuse (status code : ℕ) (text : String) :
    Counted Counter (Except Reply Auth.Principal) := do
  count .unauthorized 1
  return .error (reply status code text.toList)

/-- The value of the header, which is empty if there is none. -/
def authorization : Text := Text.trim ((r.header "authorization").getD [])

/-- The token in the header. -/
def splunk : Option Text :=
  (("Splunk ".toList.isPrefixOf? (authorization r)).or
    ("splunk ".toList.isPrefixOf? (authorization r))).map Text.trim

/-- The tokens of a query, of which there are none if the header says something. -/
def fromQuery (pairs : List (Text × Text)) : List Text :=
  if authorization r = [] then (pairs.filter fun kv => kv.1 = "token".toList).map Prod.snd else []

/-- `None` unless there is exactly one. -/
def single : List Text → Option Text
  | [token] => some token
  | _ => none

/-- The query, which is looked at only without a header. -/
def queried : Option (List (Text × Text)) :=
  if authorization r = [] then queryPairs r.query else some []

def authorized : Counted Counter (Except Reply Auth.Principal) := do
  let tokens := fromQuery r (← Counted.ofOption (queried r))
  if l.isOpen then
    l.checkToken p
      (((splunk r).filter fun _ => decide (r.headerCount "authorization" ≤ 1)).or (single tokens))
  else if 1 < r.headerCount "authorization" then
    -- A proxy may act on the other one.
    refuse 401 code.invalidAuthorization "Invalid authorization"
  else if authorization r = [] then
    match tokens with
    | [token] => l.checkToken p (some token)
    | [] => refuse 401 code.tokenRequired "Token is required"
    | _ => refuse 401 code.invalidAuthorization "Invalid authorization"
  else
    match splunk r with
    | none => refuse 401 code.invalidAuthorization "Invalid authorization"
    | some token => l.checkToken p (some token)

/-- `channel`: the header counts before the query. -/
def channel : Counted Counter (Option Text) := do
  let channel ←
    (match r.header "x-splunk-request-channel" with
      | some c => return some c
      | none => do
        let pairs ← Counted.ofOption (queryPairs r.query)
        return (pairs.find? fun kv => kv.1 = "channel".toList).map Prod.snd :
      Counted Counter (Option Text))
  return channel.filter fun c => !c.isEmpty

/-! ## Events -/

def success (channel : Option Text) : Reply :=
  match l.ackEnabled, channel with
  | true, some c =>
    .json 200 ("\x7b\"text\":\"Success\",\"code\":0,\"ackId\":".toList ++ Decimal.ofNat (p.issue c)
      ++ ['\x7d'])
  | _, _ => reply 200 code.success "Success".toList

/-- The records that were admitted go to the pipeline, unless the acks of their channel stall. -/
def submit (channel : Option Text) (records : List LogRecord) : Counted Counter Reply :=
  if l.ackEnabled = true ∧ channel.any (fun c => !p.hasCapacity c) = true then do
    count .busy 1
    return serverBusy
  else
    match p.sink records with
    | .accepted => do
      count .accepted 1
      count .records records.length
      return l.success p channel
    | .busy => do
      count .busy 1
      return serverBusy
    | .incorrectIndex => do
      count .badRequest 1
      return reply 400 code.incorrectIndex "Incorrect index".toList

/-- The records of a body are bound to the principal; with one that is refused all are. -/
def bindAndSubmit (principal : Auth.Principal) (channel : Option Text)
    (parsed : Except EventError (List LogRecord)) : Counted Counter Reply :=
  match parsed with
  | .error e => do
    count .badRequest 1
    return reply 400 e.code (titleCase e.text)
  | .ok records =>
    match p.verifier.admitBatch principal records "index".toList true with
    | (records, .ok _) => l.submit p channel records
    | (_, .error .index) => do
      count .badRequest 1
      return reply 400 code.incorrectIndex "Incorrect index".toList
    | (_, .error .wrongTenant) => do
      count .unauthorized 1
      return reply 403 code.invalidAuthorization "Forbidden".toList

def ingest (raw : Bool) : Counted Counter Reply := do
  match ← l.authorized p r with
  | .error denied => do
    count .requests 1
    return denied
  | .ok principal => do
    count .requests 1
    let channel ← channel r
    let defaults ← Counted.ofOption (Metadata.fromQuery r.query)
    l.bindAndSubmit p principal channel (p.parseBody raw r.body defaults)

/-! ## Ack polls -/

/-- The ids a poll asks for. -/
def ackIds (body : Bytes) : Option (List ℕ) :=
  match (Sentry.jsonObject body).bind fun o => Sentry.member o "acks".toList with
  | some (.arr items) => some (items.filterMap (Serde.readNat (2 ^ 64)))
  | _ => none

def ackText (channel : Text) (ids : List ℕ) : Text :=
  "\x7b\"acks\":\x7b".toList ++ List.intercalate [','] (ids.map fun id =>
    '"' :: Decimal.ofNat id ++ "\":".toList
      ++ (if p.durable channel id then "true" else "false").toList) ++ "\x7d\x7d".toList

def ackQuery : Counted Counter Reply := do
  match ← l.authorized p r with
  | .error denied => return denied
  | .ok _ =>
    if l.ackEnabled then do
      match ← channel r with
      | none => return reply 400 code.dataChannelMissing "Data channel is missing".toList
      | some c => do
        count .ackQueries 1
        return match ackIds r.body with
          | some ids => .json 200 (ackText p c ids)
          | none => reply 400 code.invalidDataFormat "Invalid data format".toList
    else return reply 400 code.ackDisabled "ACK is disabled".toList

/-! ## The handler -/

def healthPaths : List Text :=
  ["/services/collector/health".toList, "/services/collector/health/1.0".toList]

def ackPath : Text := "/services/collector/ack".toList

def rawPath : Text := "/services/collector/raw".toList

def eventPaths : List Text :=
  ["/services/collector".toList, "/services/collector/event".toList,
    "/services/collector/event/1.0".toList]

def handle : Counted Counter Reply :=
  if r.method = .get ∧ r.path ∈ healthPaths then
    return reply 200 code.healthy "HEC is healthy".toList
  else if r.method = .post then
    if r.path = ackPath then l.ackQuery p r
    else if r.path = rawPath then l.ingest p r true
    else if r.path ∈ eventPaths then l.ingest p r false
    else return reply 404 code.invalidDataFormat "Not found".toList
  else return reply 405 code.invalidDataFormat "Only POST is supported".toList

/-- The marks of a web page: it says where it is from, or its name was bound to this address. -/
def fromBrowser : Bool :=
  (r.header "origin").isSome || (r.header "sec-fetch-site").isSome || !Httpd.loopbackHost r

/-- The chain of `preflight`: a refusal, and the counter it adds to by itself. -/
def refusal : Counted Counter (Option (Reply × Option Counter)) :=
  if (l.isOpen && fromBrowser r) = true then
    return some (reply 403 code.invalidAuthorization "Forbidden".toList, some .unauthorized)
  else do
    match ← l.authorized p r with
    | .error denied => return some (denied, none)
    | .ok _ =>
      return if 1 < r.headerCount "x-splunk-request-channel" then
        some (reply 400 code.invalidDataChannel "Invalid data channel".toList, some .badRequest)
      else if !Httpd.encodingAccepted r then
        some (reply 415 code.invalidDataFormat "Content-Encoding must be gzip or absent".toList,
          some .badRequest)
      else none

/-- A refused event request is counted as one; a refused ack poll is not. -/
def refuseHead (ingest : Bool) : Counted Counter (Option Reply) := do
  match ← l.refusal p r with
  | none => return none
  | some (refused, counter) => do
    let _ ←
      (if ingest then do
        count .requests 1
        match counter with
        | some k => count k 1
        | none => return ()
      else return () : Counted Counter Unit)
    return some refused

def preflight : Counted Counter (Option Reply) :=
  if r.method = .post ∧ r.path = ackPath then l.refuseHead p r false
  else if r.method = .post ∧ (r.path ∈ eventPaths ∨ r.path = rawPath) then l.refuseHead p r true
  else return none

def reject (reason : Reject) : Counted Counter Reply := do
  count .requests 1
  match reason with
  | .tooLarge => do
    count .tooLarge 1
    return reply 413 code.invalidDataFormat
      "Request body exceeds the configured limit".toList
  | .unreadable _ => do
    count .badRequest 1
    return reply 400 code.invalidDataFormat "Invalid data format".toList

def handler : Handler Counter := ⟨l.preflight p, l.handle p, reject⟩

end Listener

end LogLess.Hec
