import LogLess.Config
import LogLess.Lib.Counting
import LogLess.Lib.Decimal
import LogLess.Lib.Frames
import LogLess.Lib.Text
import LogLess.Lib.Utf8

/-!
# What the listeners make of a request

A listener shows the head of a request to its handler first, which may answer it there and then.
Only after that the body is read: it is handed over whole, or refused, or the request is answered or
dropped without the handler. The counters are those of the handler.
-/

namespace LogLess.Httpd

open Counting (Counted Ledger)
open Frames (Bytes)

inductive Method where
  | get
  | post
  | put
  | head
  | other
deriving DecidableEq

structure Incoming where
  method : Method
  path : Text
  query : Text
  headers : List (Text × Text)
  body : Bytes
deriving DecidableEq

namespace Incoming

variable (r : Incoming)

/-- The headers of a name, whatever the case of its letters. -/
def named (name : String) : List (Text × Text) :=
  r.headers.filter fun h => asciiLower h.1 = asciiLower name.toList

def headerCount (name : String) : ℕ := (r.named name).length

/-- The first of them. -/
def header (name : String) : Option Text := (r.named name).head?.map Prod.snd

/-- The request once its body is there. -/
def withBody (body : Bytes) : Incoming := { r with body := body }

/-- `Content-Type` without parameters. -/
def contentType : Text :=
  asciiLower (Text.trim ((Text.splitAt ';' ((r.header "content-type").getD [])).headD []))

end Incoming

/-- Why a body is refused. -/
inductive Reject where
  | tooLarge
  | unreadable (why : Text)
deriving DecidableEq

structure Reply where
  status : ℕ
  contentType : Text
  body : Bytes
  headers : List (Text × Text)
deriving DecidableEq

def Reply.json (status : ℕ) (body : Text) : Reply :=
  ⟨status, "application/json".toList, Utf8.encode body, []⟩

def Reply.withHeader (r : Reply) (name value : String) : Reply :=
  { r with headers := r.headers ++ [(name.toList, value.toList)] }

/-! ## Checks of the head -/

/-- `encoding_accepted`. -/
def encodingAccepted (head : Incoming) : Bool :=
  match head.headerCount "content-encoding" with
  | 0 => true
  | 1 =>
    let coding := asciiLower (Text.trim ((head.header "content-encoding").getD []))
    coding = [] ∨ coding = "identity".toList ∨ coding = "gzip".toList
  | _ => false

/-- One number of an IPv4 address. -/
def octet (t : Text) : Option ℕ :=
  if t ≠ [] ∧ t.length ≤ 3 ∧ t.all Char.isDigit ∧ (t.length = 1 ∨ t.head? ≠ some '0') then
    (some (Nat.ofDigitChars 10 t 0)).filter fun n => n ≤ 255
  else none

/-- `Ipv4Addr::is_loopback` of what is read as an address. -/
def loopbackV4 (t : Text) : Bool :=
  match (Text.splitAt '.' t).mapM octet with
  | some [first, _, _, _] => first = 127
  | _ => false

def portOk (port : Text) : Bool := port.isEmpty || (port.length ≤ 5 && port.all Char.isDigit)

def isHexDigit (c : Char) : Bool := c.isDigit || ('a' ≤ c && c ≤ 'f') || ('A' ≤ c && c ≤ 'F')

/-- The host in a header, if the header is nothing else than a host and perhaps a port. -/
def hostOf (value : Text) : Option Text :=
  match value with
  | '[' :: rest => do
    let (inner, tail) ← Text.splitOnce ']' rest
    let tailOk := tail.isEmpty || (tail.head? = some ':' && portOk tail.tail)
    if tailOk ∧ inner.all (fun c => isHexDigit c || c = ':' || c = '.') then some inner else none
  | _ =>
    let (host, port) := (Text.splitOnce ':' value).getD (value, [])
    if portOk port ∧ host.all (fun c => c.isAlphanum || c = '.' || c = '-') then some host else none

/-- `host_allowed` without names of its own. -/
def hostAllowed (header : Option Text) : Bool :=
  match header.bind fun value => hostOf (asciiLower (Text.trim value)) with
  | none => false
  | some host => host = "localhost".toList || host = "::1".toList || loopbackV4 host

/-- `loopback_host`. -/
def loopbackHost (head : Incoming) : Bool :=
  head.headerCount "host" = 1 ∧ hostAllowed (head.header "host") = true

/-! ## Serving -/

/-- One protocol. -/
structure Handler (κ : Type) where
  preflight : Incoming → Counted κ (Option Reply)
  handle : Incoming → Counted κ Reply
  reject : Reject → Counted κ Reply

/-- What came of the body. -/
inductive BodyRead where
  | whole (body : Bytes)
  | rejected (reason : Reject)
  /-- Answered by the listener itself, or the connection was lost. -/
  | failed
deriving DecidableEq

/-- `serve`: the answer of the handler, if it gave one. It may be another one for the body than for
the head, since what it asks of the process changes in between. -/
def serve {κ : Type} (atHead atBody : Handler κ) (head : Incoming) (body : BodyRead) :
    Counted κ (Option Reply) := do
  match ← atHead.preflight head with
  | some reply => return some reply
  | none =>
    match body with
    | .whole bytes => some <$> atBody.handle (head.withBody bytes)
    | .rejected reason => some <$> atBody.reject reason
    | .failed => return none

/-! ## Accounts -/

/-- A request, and what the process says while its head and its body are looked at. -/
structure Visit (π : Type) where
  head : Incoming
  body : BodyRead
  atHead : π
  atBody : π

/-- A protocol with its ledger, and which requests that has. -/
structure Service (κ π : Type) where
  handler : π → Handler κ
  ledger : Ledger κ
  isCounted : Incoming → Bool

namespace Service

variable {κ π : Type} (s : Service κ π) (v : Visit π)

def result : Counted κ (Option Reply) :=
  serve (s.handler v.atHead) (s.handler v.atBody) v.head v.body

def log : List (κ × ℕ) := (s.result v).log

/-- A request of the ledger that `preflight`, `handle` or `reject` answered. -/
def counted : Bool := s.isCounted v.head && (s.result v).value.join.isSome

variable {s v} {log : List (κ × ℕ)}

theorem result_of_panicked (h : (s.handler v.atHead).preflight v.head = ⟨log, none⟩) :
    s.result v = ⟨log, none⟩ := by
  rw [result, serve.eq_def, h, Counting.bind_none]

theorem result_of_refused {reply : Reply}
    (h : (s.handler v.atHead).preflight v.head = ⟨log, some (some reply)⟩) :
    s.result v = ⟨log, some (some reply)⟩ := by
  rw [result, serve.eq_def, h, Counting.bind_some]
  show (⟨log ++ [], some (some reply)⟩ : Counted κ (Option Reply)) = _
  rw [List.append_nil]

section

variable (h : (s.handler v.atHead).preflight v.head = ⟨[], some none⟩)
include h

theorem result_of_whole {bytes : Bytes} (hbody : v.body = .whole bytes) :
    s.result v = ⟨((s.handler v.atBody).handle (v.head.withBody bytes)).log,
      ((s.handler v.atBody).handle (v.head.withBody bytes)).value.map some⟩ := by
  rw [result, serve.eq_def, h, Counting.bind_quiet, hbody]
  exact Counting.map_eq some _

theorem result_of_rejected {reason : Reject} (hbody : v.body = .rejected reason) :
    s.result v = ⟨((s.handler v.atBody).reject reason).log,
      ((s.handler v.atBody).reject reason).value.map some⟩ := by
  rw [result, serve.eq_def, h, Counting.bind_quiet, hbody]
  exact Counting.map_eq some _

theorem result_of_failed (hbody : v.body = .failed) : s.result v = ⟨[], some none⟩ := by
  rw [result, serve.eq_def, h, Counting.bind_quiet, hbody]
  rfl

end

variable [DecidableEq κ]

variable (s v) in
/-- The ledger has the request once, or not at all. -/
def Exact : Prop := if s.counted v then s.ledger.Once (s.log v) else s.ledger.Never (s.log v)

/-- An answer that is counted once is right for the requests of the ledger. -/
theorem exact_of_once {reply : Reply} (h : s.result v = ⟨log, some (some reply)⟩)
    (honce : s.ledger.Once log) : s.Exact v ↔ s.isCounted v.head = true := by
  rw [Exact, counted, Service.log, h]
  cases s.isCounted v.head with
  | true => exact iff_of_true honce rfl
  | false =>
    refine iff_of_false (fun hnever => ?_) Bool.false_ne_true
    have hzero : (1 : ℕ) = 0 := honce.1.symm.trans hnever.1
    cases hzero

theorem exact_of_unanswered {value : Option (Option Reply)} (h : s.result v = ⟨log, value⟩)
    (hvalue : value.join = none) : s.Exact v ↔ s.ledger.Never log := by
  rw [Exact, counted, Service.log, h, hvalue, Option.isSome_none, Bool.and_false,
    if_neg Bool.false_ne_true]

theorem exact_of_other (h : s.isCounted v.head = false) :
    s.Exact v ↔ s.ledger.Never (s.log v) := by
  rw [Exact, counted, h, Bool.false_and, if_neg Bool.false_ne_true]

theorem exact_of_fair {x : Counted κ Reply} (h : s.result v = ⟨x.log, x.value.map some⟩)
    (hcounted : s.isCounted v.head = true) : s.Exact v ↔ s.ledger.Fair x := by
  rw [Exact, counted, Service.log, h, hcounted, Bool.true_and, Ledger.Fair]
  cases x.value with
  | none => exact Iff.rfl
  | some reply => exact Iff.rfl

end Service

end LogLess.Httpd
