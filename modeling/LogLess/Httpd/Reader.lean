import LogLess.Http
import LogLess.Httpd
import LogLess.Lib.Reads

/-!
# Reading a request

`readRequest` reads a request from what a client sends, in whatever pieces it comes: the head up to
the blank line, then a body of the length that is declared, or one in chunks. Its limits are checked
on what is buffered before more is read, so a head or a line of the chunks that is just within its
limit can be refused, depending on the pieces. Apart from that the pieces make no difference.
-/

namespace LogLess.Httpd

open Frames (Bytes)
open Reads

structure Limits where
  maxBodyBytes : ℕ
  maxDecompressedBytes : ℕ

structure HeadLimits where
  maxHeadBytes : ℕ
  maxHeaders : ℕ
  gzip : Bool
  chunked : Bool

/-- What the listener words itself. -/
inductive Bad where
  | request (why : Text)
  | headTooLarge
  /-- The handler answered from the head alone. -/
  | early (reply : Reply)
  | unsupported (why : Text)
  | timeout
  | closed
deriving DecidableEq

def Bad.ofHead : Http.Bad → Bad
  | .request why => .request why
  | .headTooLarge => .headTooLarge

structure Parsed where
  head : Incoming
  methodName : Text
  body : Bytes
deriving DecidableEq

/-- A refusal that the handler words, or one that the listener does. -/
abbrev Refused := Except Reject Bad

def fail {α : Type} (bad : Bad) : Reader Refused α := throw (.ok bad)

def reject {α : Type} (reason : Reject) : Reader Refused α := throw (.error reason)

def crlf : Bytes := [0x0D, 0x0A]

/-! ## The head -/

def methodOf (name : Text) : Method :=
  if name = "GET".toList then .get
  else if name = "POST".toList then .post
  else if name = "PUT".toList then .put
  else if name = "HEAD".toList then .head
  else .other

def incomingOf (r : Http.Request) : Incoming := ⟨methodOf r.method, r.path, r.query, r.headers, []⟩

def eqIgnoreCase (a : Text) (b : String) : Bool := asciiLower a = asciiLower b.toList

/-- Whether the body is in chunks. -/
def isChunked (limits : HeadLimits) (r : Incoming) : Except Bad Bool :=
  match r.named "transfer-encoding" with
  | [] => .ok false
  | codings =>
    if codings.length = 1 ∧ limits.chunked ∧ codings.all (fun h => eqIgnoreCase h.2 "chunked") then
      .ok true
    else if limits.chunked then
      .error (.unsupported "the only transfer coding accepted is a single chunked".toList)
    else
      .error (.unsupported
        "send a Content-Length body; chunked requests are not accepted".toList)

/-- `v.parse::<usize>()` of digits alone. -/
def parseLength (v : Text) : Option ℕ :=
  if v ≠ [] ∧ v.all Char.isDigit ∧ Nat.ofDigitChars 10 v 0 < 2 ^ 64 then
    some (Nat.ofDigitChars 10 v 0)
  else none

/-- The length of the body, if it is not in chunks. -/
def declaredLength (r : Incoming) : Except Bad ℕ :=
  match r.named "content-length" with
  | [] => .ok 0
  | [(_, v)] =>
    match parseLength v with
    | some n => .ok n
    | none => .error (.request "bad Content-Length".toList)
  | _ => .error (.request "duplicate Content-Length".toList)

/-- Whether the body is in chunks, and its length if not. -/
def framing (limits : HeadLimits) (r : Incoming) : Except Bad (Bool × ℕ) := do
  let chunked ← isChunked limits r
  if chunked ∧ r.named "content-length" ≠ [] then
    .error (.request "Content-Length and Transfer-Encoding together".toList)
  else
    let declared ← declaredLength r
    return (chunked, declared)

/-! ## Chunks -/

def hexDigit (b : UInt8) : Option ℕ :=
  if 0x30 ≤ b ∧ b ≤ 0x39 then some (b - 0x30).toNat
  else if 0x41 ≤ b ∧ b ≤ 0x46 then some ((b - 0x41).toNat + 10)
  else if 0x61 ≤ b ∧ b ≤ 0x66 then some ((b - 0x61).toNat + 10)
  else none

/-- The size of a chunk: hexadecimal digits, before an extension. -/
def chunkSize (line : Bytes) : Option ℕ :=
  let digits := line.takeWhile fun b => b != 0x3B
  if digits = [] ∨ 15 < digits.length then none
  else (digits.mapM hexDigit).map fun values => values.foldl (fun n d => n * 16 + d) 0

section

-- after the last read the connection is closed, or nothing comes in time
variable (maxBody maxLine : ℕ) (ended : Bad)

def takeLine : Reader Refused Bytes :=
  await (delimited crlf) (some (maxLine, .ok (.request "chunk line too long".toList))) (.ok ended)

/-- One chunk after another; a chunk takes something, so that no more turns are needed than there
are bytes. -/
def readChunks : ℕ → Bytes → Reader Refused Bytes
  | 0, _ => fail ended
  | turns + 1, body => do
    let line ← takeLine maxLine ended
    match chunkSize line with
    | none => fail (.request "malformed chunk size".toList)
    | some 0 => return body
    | some size =>
      if maxBody < body.length + size then reject .tooLarge
      else do
        let data ← await (exactly (size + 2)) none (.ok ended)
        if data.drop size = crlf then readChunks turns (body ++ data.take size)
        else fail (.request "chunk data does not end with CRLF".toList)

/-- The trailers, which are dropped. -/
def readTrailers : ℕ → ℕ → Reader Refused Unit
  | 0, _ => fail ended
  | turns + 1, trailers => do
    let line ← takeLine maxLine ended
    if line = [] then return ()
    else if maxLine < trailers + (line.length + 2) then fail .headTooLarge
    else readTrailers turns (trailers + (line.length + 2))

def readChunked : Reader Refused Bytes := do
  let body ← sized fun n => readChunks maxBody maxLine ended (n + 1) []
  sized fun n => readTrailers maxLine ended (n + 1) 0
  return body

end

section

variable {maxBody maxLine : ℕ} {ended : Bad}

theorem takeLine_lt {s t : Source} {line : Bytes} (h : takeLine maxLine ended s = .ok (line, t)) :
    t.whole.length < s.whole.length := by
  obtain ⟨n, hscan, hlength⟩ := await_length_le h
  obtain ⟨rest, -, -, rfl⟩ := delimited_eq_some.mp hscan
  rw [List.length_append] at hlength
  have hcrlf : crlf.length = 2 := rfl
  omega

/-- More turns than there are bytes make no difference. -/
theorem readChunks_turns {m n : ℕ} {s : Source} (hm : s.whole.length < m) (hn : s.whole.length < n)
    (body : Bytes) :
    readChunks maxBody maxLine ended m body s = readChunks maxBody maxLine ended n body s := by
  induction m generalizing n s body with
  | zero => exact absurd hm (Nat.not_lt_zero _)
  | succ m ih =>
    obtain ⟨n, rfl⟩ := Nat.exists_eq_add_one_of_ne_zero (Nat.ne_zero_of_lt hn)
    rw [readChunks, readChunks]
    refine bind_congr fun line t hline => ?_
    have hless := takeLine_lt hline
    cases chunkSize line with
    | none => rfl
    | some size =>
      cases size with
      | zero => rfl
      | succ size =>
        simp only
        split
        · rfl
        · refine bind_congr fun data u hdata => ?_
          obtain ⟨k, -, hlength⟩ := await_length_le hdata
          split
          · exact ih (by omega) (by omega) _
          · rfl

theorem readTrailers_turns {m n : ℕ} {s : Source} (hm : s.whole.length < m)
    (hn : s.whole.length < n) (trailers : ℕ) :
    readTrailers maxLine ended m trailers s = readTrailers maxLine ended n trailers s := by
  induction m generalizing n s trailers with
  | zero => exact absurd hm (Nat.not_lt_zero _)
  | succ m ih =>
    obtain ⟨n, rfl⟩ := Nat.exists_eq_add_one_of_ne_zero (Nat.ne_zero_of_lt hn)
    rw [readTrailers, readTrailers]
    refine bind_congr fun line t hline => ?_
    have hless := takeLine_lt hline
    split
    · rfl
    · split
      · rfl
      · exact ih (by omega) (by omega) _

end

/-! ## Requests -/

section

variable (limits : Limits) (head : HeadLimits) (preflight : Incoming → Option Reply)
  (gunzip : ℕ → Bytes → Except Reject Bytes) (ended : Bad)

def headEnd : Scanner Bytes := delimited (crlf ++ crlf)

def readText : Reader Refused Text := do
  let bytes ← await headEnd (some (head.maxHeadBytes, .ok .headTooLarge)) (.ok ended)
  if head.maxHeadBytes < bytes.length then fail .headTooLarge
  else
    match Utf8.strict bytes with
    | none => fail (.request "request head is not UTF-8".toList)
    | some text => return text

/-- A body as it is sent. -/
def readBody (chunked : Bool) (declared : ℕ) : Reader Refused Bytes :=
  if limits.maxBodyBytes < declared then reject .tooLarge
  else if chunked then readChunked limits.maxBodyBytes head.maxHeadBytes ended
  else await (exactly declared) none (.ok ended)

/-- A body as it is meant. -/
def inflated (r : Incoming) (body : Bytes) : Reader Refused Bytes :=
  if head.gzip ∧ (r.named "content-encoding").any (fun h => eqIgnoreCase h.2 "gzip") then
    match gunzip limits.maxDecompressedBytes body with
    | .ok plain => return plain
    | .error reason => reject reason
  else return body

/-- `read_request`, of a handler that does not take the body as it comes. -/
def readRequest : Reader Refused Parsed := do
  let text ← readText head ended
  match Http.readHead head.maxHeaders text with
  | .error bad => fail (.ofHead bad)
  | .ok request =>
    match framing head (incomingOf request) with
    | .error bad => fail bad
    | .ok (chunked, declared) =>
      match preflight (incomingOf request) with
      | some reply => fail (.early reply)
      | none => do
        let sent ← readBody limits head ended chunked declared
        let body ← inflated limits head gunzip (incomingOf request) sent
        return ⟨incomingOf request, request.method, body⟩

end

/-! ## The pieces make no difference -/

/-- A refusal of a limit that is checked before more is read. -/
def isLimit (refused : Refused) : Prop :=
  refused = .ok .headTooLarge ∨ refused = .ok (.request "chunk line too long".toList)

section

variable (maxBody maxLine : ℕ) (ended : Bad)

theorem steady_fail {α : Type} (bad : Bad) : Steady isLimit (fail bad : Reader Refused α) :=
  Steady.throw _

theorem steady_reject {α : Type} (reason : Reject) :
    Steady isLimit (reject reason : Reader Refused α) := Steady.throw _

theorem steady_takeLine : Steady isLimit (takeLine maxLine ended) := by
  refine steady_await fun max e h => ?_
  cases h
  exact .inr rfl

theorem steady_exactly (count : ℕ) (e : Refused) :
    Steady isLimit (await (exactly count) none e) := by
  refine steady_await fun max e h => ?_
  cases h

theorem steady_readChunks (turns : ℕ) (body : Bytes) :
    Steady isLimit (readChunks maxBody maxLine ended turns body) := by
  induction turns generalizing body with
  | zero => exact steady_fail ended
  | succ turns ih =>
    rw [readChunks]
    refine (steady_takeLine maxLine ended).bind fun line => ?_
    split
    · exact steady_fail _
    · exact .pure body
    · split
      · exact steady_reject _
      · refine (steady_exactly _ _).bind fun data => ?_
        split
        · exact ih _
        · exact steady_fail _

theorem steady_readTrailers (turns trailers : ℕ) :
    Steady isLimit (readTrailers maxLine ended turns trailers) := by
  induction turns generalizing trailers with
  | zero => exact steady_fail ended
  | succ turns ih =>
    rw [readTrailers]
    refine (steady_takeLine maxLine ended).bind fun line => ?_
    split
    · exact .pure ()
    · split
      · exact steady_fail _
      · exact ih _

theorem steady_readChunked : Steady isLimit (readChunked maxBody maxLine ended) := by
  refine Steady.bind (.sized fun n => steady_readChunks maxBody maxLine ended _ _) fun body => ?_
  exact Steady.bind (.sized fun n => steady_readTrailers maxLine ended _ _) fun _ => .pure body

end

section

variable (limits : Limits) (head : HeadLimits) (preflight : Incoming → Option Reply)
  (gunzip : ℕ → Bytes → Except Reject Bytes) (ended : Bad)

theorem steady_readText : Steady isLimit (readText head ended) := by
  have hawait : Steady isLimit
      (await headEnd (some (head.maxHeadBytes, .ok .headTooLarge)) (.ok ended)) := by
    refine steady_await fun max e h => ?_
    cases h
    exact .inl rfl
  refine hawait.bind fun bytes => ?_
  split
  · exact steady_fail _
  · split
    · exact steady_fail _
    · exact .pure _

theorem steady_readBody (chunked : Bool) (declared : ℕ) :
    Steady isLimit (readBody limits head ended chunked declared) := by
  rw [readBody]
  split
  · exact steady_reject _
  · split
    · exact steady_readChunked _ _ _
    · exact steady_exactly _ _

theorem steady_inflated (r : Incoming) (body : Bytes) :
    Steady isLimit (inflated limits head gunzip r body) := by
  rw [inflated]
  split
  · split
    · exact .pure _
    · exact steady_reject _
  · exact .pure _

theorem steady_readRequest :
    Steady isLimit (readRequest limits head preflight gunzip ended) := by
  refine (steady_readText head ended).bind fun text => ?_
  split
  · exact steady_fail _
  · split
    · exact steady_fail _
    · split
      · exact steady_fail _
      · refine (steady_readBody limits head ended _ _).bind fun sent => ?_
        exact (steady_inflated limits head gunzip _ _).bind fun body => .pure _

/-- What a client is told, or what the handler gets, of what the client sends. -/
def outcome (s : Source) : Except Refused Parsed :=
  (readRequest limits head preflight gunzip ended s).map Prod.fst

variable {limits head preflight gunzip ended}

theorem outcome_eq_error {s : Source} {e : Refused} :
    outcome limits head preflight gunzip ended s = .error e ↔
      readRequest limits head preflight gunzip ended s = .error e := by
  rw [outcome]
  cases readRequest limits head preflight gunzip ended s with
  | error e' =>
    show Except.error e' = Except.error e ↔ _
    rw [Except.error.injEq, Except.error.injEq]
  | ok r =>
    refine iff_of_false ?_ ?_
    · intro h
      cases h
    · intro h
      cases h

theorem outcome_eq_ok {s : Source} {p : Parsed} :
    outcome limits head preflight gunzip ended s = .ok p ↔
      ∃ t, readRequest limits head preflight gunzip ended s = .ok (p, t) := by
  rw [outcome]
  cases readRequest limits head preflight gunzip ended s with
  | error e =>
    refine iff_of_false ?_ ?_
    · intro h
      cases h
    · rintro ⟨t, h⟩
      cases h
  | ok r =>
    obtain ⟨p', t⟩ := r
    constructor
    · intro h
      cases h
      exact ⟨t, rfl⟩
    · rintro ⟨t', h⟩
      cases h
      rfl

theorem outcome_gather (s : Source) : outcome limits head preflight gunzip ended s
    = (gather (readRequest limits head preflight gunzip ended s)).map Prod.fst := by
  rw [outcome]
  cases readRequest limits head preflight gunzip ended s <;> rfl

variable (limits head preflight gunzip ended)

/-- However what a client sends is cut into reads, it comes to the same request or the same refusal,
unless for one of the two a limit of the head or of a line was passed by what was buffered. -/
theorem pieces_irrelevant (s t : Source) (h : s.whole = t.whole) :
    outcome limits head preflight gunzip ended s = outcome limits head preflight gunzip ended t ∨
      (∃ e, isLimit e ∧ outcome limits head preflight gunzip ended s = .error e) ∨
      ∃ e, isLimit e ∧ outcome limits head preflight gunzip ended t = .error e := by
  rcases (steady_readRequest limits head preflight gunzip ended).same h with hsame | hs | ht
  · left
    rw [outcome_gather, outcome_gather, hsame]
  · obtain ⟨e, he, hs⟩ := hs
    exact .inr (.inl ⟨e, he, outcome_eq_error.mpr hs⟩)
  · obtain ⟨e, he, ht⟩ := ht
    exact .inr (.inr ⟨e, he, outcome_eq_error.mpr ht⟩)

/-- A head in two reads and in one. -/
theorem pieces_irrelevant_twoReads :
    let line := Utf8.encode "GET /health HTTP/1.1".toList
    let handle := outcome ⟨1024, 1024⟩ ⟨64, 8, false, true⟩ (fun _ => none)
      (fun _ _ => .error .tooLarge) .closed
    handle ⟨line, [crlf, crlf]⟩ = handle ⟨line ++ crlf, [crlf]⟩ ∨
      (∃ e, isLimit e ∧ handle ⟨line, [crlf, crlf]⟩ = .error e) ∨
      ∃ e, isLimit e ∧ handle ⟨line ++ crlf, [crlf]⟩ = .error e := by
  refine pieces_irrelevant _ _ _ _ _ _ _ ?_
  simp only [Source.whole, List.flatten_cons, List.append_assoc]

/-- A request that is taken byte by byte is taken in any pieces, and one that is taken in some
pieces is taken in one; it is the same request each time. -/
theorem bytewise_suffices (s : Source) (p : Parsed) :
    (outcome limits head preflight gunzip ended s.bytewise = .ok p →
      outcome limits head preflight gunzip ended s = .ok p) ∧
    (outcome limits head preflight gunzip ended s = .ok p →
      outcome limits head preflight gunzip ended s.gathered = .ok p) := by
  have hsteady := steady_readRequest limits head preflight gunzip ended
  constructor
  · intro h
    obtain ⟨t, ht⟩ := outcome_eq_ok.mp h
    rw [outcome_gather, (hsteady.slow s p t ht).2]
    rfl
  · intro h
    obtain ⟨t, ht⟩ := outcome_eq_ok.mp h
    exact outcome_eq_ok.mpr ⟨_, hsteady.in_one_piece ht⟩

end

end LogLess.Httpd
