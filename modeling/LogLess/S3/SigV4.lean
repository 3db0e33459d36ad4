import LogLess.Auth.Sessions
import LogLess.Http
import LogLess.S3.Serve

/-!
# Signed requests

`verify` recomputes what a client signed from the request that arrived: its canonical text, under a
key for the day and the region. SHA-256 and HMAC are parameters. What is signed apart from the
request it arrives in is a `Signing`, whether a client writes it or `verify` reads it.

The canonical text is lines: the method, the path, the query, one line for each signed header, an
empty line, the names of the signed headers and the hash of the payload.
-/

namespace LogLess.SigV4

open Auth (KeyPair)
open S3 (header percentBytes parseQuery queryGet listObjects)

inductive AuthError where
  | missing
  | malformed
  | unknownKey
  | expired
  | badSignature
deriving DecidableEq

def okOr {α : Type} (o : Option α) (e : AuthError) : Except AuthError α :=
  match o with
  | some a => .ok a
  | none => .error e

/-- A check that refuses. -/
def require (ok : Bool) (e : AuthError) : Except AuthError Unit := if ok then .ok () else .error e

def algorithm : Text := "AWS4-HMAC-SHA256".toList

def maxSkewSecs : ℕ := 900

/-! ## The authorization header -/

structure Parsed where
  accessKey : Text
  date : Text
  region : Text
  signed : List Text
  signature : List UInt8
  named : ∀ name ∈ signed, ';' ∉ name

def hexDecode (s : Text) : Option (List UInt8) := if s.isEmpty then none else Serde.unhex s

/-- The last of the parts with this name. -/
def lastField (name : String) (parts : List Text) : Option Text :=
  (parts.filterMap fun part => name.toList.isPrefixOf? part).getLast?

def signedNames (list : Text) : List Text :=
  (Text.splitAt ';' list).map fun h => asciiLower (Text.trim h)

/-- No other character is lowered to one that is not a letter. -/
theorem eq_of_toLower {c d : Char} (hd : d.toNat < 0x61) (h : c.toLower = d) : c = d := by
  delta Char.toLower at h
  split at h
  · next hc =>
    obtain ⟨hlow, hhigh⟩ : 65 ≤ c.val.toNat ∧ c.val.toNat ≤ 90 := hc
    have hraised : (c.val + 32).toNat = c.val.toNat + 32 := by
      have h32 : UInt32.toNat 32 = 32 := rfl
      rw [UInt32.toNat_add, h32]
      exact Nat.mod_eq_of_lt (by omega)
    rw [← h] at hd
    have hd : (c.val + 32).toNat < 97 := hd
    omega
  · exact h

theorem notMem_asciiLower {d : Char} (hd : d.toNat < 0x61) {t : Text} (h : d ∉ t) :
    d ∉ asciiLower t := by
  intro hmem
  obtain ⟨c, hc, hlower⟩ := List.mem_map.mp hmem
  exact h (eq_of_toLower hd hlower ▸ hc)

theorem trim_subset (t : Text) : Text.trim t ⊆ t := by
  intro c hc
  have hc := (List.dropWhile_sublist _).subset (List.mem_reverse.mp hc)
  exact (List.dropWhile_sublist _).subset (List.mem_reverse.mp hc)

theorem semicolon_notMem_signedNames (list : Text) : ∀ name ∈ signedNames list, ';' ∉ name := by
  intro name hname
  obtain ⟨part, hpart, rfl⟩ := List.mem_map.mp hname
  apply notMem_asciiLower (by decide)
  exact fun h => (Text.of_mem_splitAt hpart).1 (trim_subset part h)

/-- `parse_authorization`, whose refusals are all one. -/
def parseAuthorization (auth : Text) : Option Parsed := do
  let rest ← algorithm.isPrefixOf? (Text.trim auth)
  guard (rest.head? = some ' ' ∨ rest.head? = some '\t')
  let parts := (Text.splitAt ',' rest).map Text.trim
  let cred ← lastField "Credential=" parts
  let signed ← lastField "SignedHeaders=" parts
  let sig ← lastField "Signature=" parts
  match Text.splitAt '/' cred with
  | [accessKey, date, region, service, terminal] =>
    guard (region ≠ [] ∧ date.length = 8 ∧ date.all Char.isDigit = true)
    guard (service = "s3".toList ∧ terminal = "aws4_request".toList)
    guard (∀ name ∈ signedNames signed, name ≠ [])
    let signature ← hexDecode sig
    return ⟨accessKey, date, region, signedNames signed, signature,
      semicolon_notMem_signedNames signed⟩
  | _ => none

/-! ## The time -/

def num (s : Text) : Option ℕ := if s.all Char.isDigit then Decimal.parse s else none

def toUnix (y mo d h mi s : ℕ) : Option ℕ :=
  if (1970 ≤ y ∧ y ≤ 9999) ∧ (1 ≤ mo ∧ mo ≤ 12) ∧ (1 ≤ d ∧ d ≤ 31) ∧ h ≤ 23 ∧ mi ≤ 59 ∧ s ≤ 60 then
    some ((Civil.daysFromCivil y mo d).toNat * 86400 + h * 3600 + mi * 60 + s)
  else none

def parseIsoBasic (v : Text) : Option ℕ :=
  if v.length = 16 ∧ v.all (fun c => c.toNat < 128) = true ∧ v[8]? = some 'T' ∧ v[15]? = some 'Z' then do
    toUnix (← num (v.take 4)) (← num ((v.drop 4).take 2)) (← num ((v.drop 6).take 2))
      (← num ((v.drop 9).take 2)) (← num ((v.drop 11).take 2)) (← num ((v.drop 13).take 2))
  else none

def parseRfc1123 (v : Text) : Option ℕ :=
  if v.all (fun c => c.toNat < 128) then
    match Text.splitWhitespace v with
    | [_, day, month, year, time, zone] => do
      let d ← num day
      let y ← num year
      guard (zone = "GMT".toList)
      let mo ← S3.months.findIdx? fun m => asciiLower m = asciiLower month
      match Text.splitAt ':' time with
      | [h, mi, s] => toUnix y (mo + 1) d (← num h) (← num mi) (← num s)
      | _ => none
    | _ => none
  else none

def formatIsoBasic (secs : ℕ) : Text :=
  let (y, m, d) := Civil.civilFromDays (secs / 86400 : ℕ)
  let rem := secs % 86400
  Decimal.padded 4 y.toNat ++ Decimal.padded 2 m ++ Decimal.padded 2 d ++ 'T' ::
    (Decimal.padded 2 (rem / 3600) ++ Decimal.padded 2 (rem % 3600 / 60)
      ++ Decimal.padded 2 (rem % 60) ++ ['Z'])

/-- `request_time`: what the request says, in text and in seconds. The header of the signature comes
before the other. -/
def requestTime (headers : List (Text × Text)) : Option (Text × ℕ) :=
  match header headers "x-amz-date".toList with
  | some v => (parseIsoBasic (Text.trim v)).map fun secs => (Text.trim v, secs)
  | none => do
    let v ← header headers "date".toList
    let secs ← parseRfc1123 (Text.trim v)
    return (formatIsoBasic secs, secs)

/-! ## The canonical text -/

/-- `aws_encode`, of one byte. -/
def awsByte (b : UInt8) : Text :=
  let c := Char.ofNat b.toNat
  if b < 128 ∧ (c.isAlphanum ∨ c ∈ ['-', '_', '.', '~']) then [c]
  else '%' :: asciiUpper (Store.simple [b])

def awsEncode (bytes : List UInt8) : Text := bytes.flatMap awsByte

/-- The decoded pairs of a query, in its order. -/
def decodedPairs (raw : Text) : Option (List (List UInt8 × List UInt8)) :=
  ((Text.splitAt '&' raw).filter fun kv => !kv.isEmpty).mapM fun kv => do
    let (k, v) := (Text.splitOnce '=' kv).getD (kv, [])
    return (← percentBytes true k, ← percentBytes true v)

def encodePair (pair : List UInt8 × List UInt8) : Text :=
  awsEncode pair.1 ++ '=' :: awsEncode pair.2

def sortPairs (pairs : List (List UInt8 × List UInt8)) : List (List UInt8 × List UInt8) :=
  pairs.insertionSort fun a b => ((compare a.1 b.1).then (compare a.2 b.2)).isLE = true

def canonicalQuery (raw : Text) : Option Text :=
  (decodedPairs raw).map fun pairs => List.intercalate ['&'] ((sortPairs pairs).map encodePair)

/-- The values of a header, with their blanks folded. -/
def canonicalValue (headers : List (Text × Text)) (name : Text) : Option Text :=
  let vals := (headers.filter fun h => asciiLower h.1 = asciiLower name).map fun h =>
    List.intercalate [' '] (Text.splitWhitespace h.2)
  if vals.isEmpty then none else some (List.intercalate [','] vals)

/-- The names in order, each once. -/
def canonicalNames (signed : List Text) : List Text :=
  (signed.insertionSort fun a b => (compare a b).isLE = true).destutter (· ≠ ·)

def canonicalPath (rawPath : Text) : Text := if rawPath.isEmpty then ['/'] else rawPath

/-- The lines of the signed headers. -/
def headerLines (headers : List (Text × Text)) (signed : List Text) : Option (List Text) :=
  (canonicalNames signed).mapM fun name =>
    (canonicalValue headers name).map fun value => name ++ ':' :: value

/-- The text that is hashed, from its lines. -/
def canonicalText (method path query : Text) (lines : List Text) (signed payloadHash : Text) : Text :=
  method ++ '\n' :: (path ++ '\n' :: (query ++ '\n' ::
    (lines.flatMap (fun line => line ++ ['\n']) ++ '\n' :: (signed ++ '\n' :: payloadHash))))

/-- `canonical_request`. -/
def canonicalRequest (r : Http.Request) (signed : List Text) (payloadHash : Text) : Option Text := do
  let lines ← headerLines r.headers signed
  let query ← canonicalQuery r.query
  return canonicalText r.method (canonicalPath r.path) query lines (List.intercalate [';'] signed)
    payloadHash

/-! ## The signature -/

section

variable (sha256 : List UInt8 → ByteArr 32) (hmacSha256 : List UInt8 → List UInt8 → ByteArr 32)

def signingKey (secret date region : Text) : List UInt8 :=
  let k := hmacSha256 (Utf8.encode ("AWS4".toList ++ secret)) (Utf8.encode date)
  let k := hmacSha256 k.val (Utf8.encode region)
  let k := hmacSha256 k.val (Utf8.encode "s3".toList)
  (hmacSha256 k.val (Utf8.encode "aws4_request".toList)).val

def stringToSign (amzDate date region canonical : Text) : Text :=
  algorithm ++ '\n' :: (amzDate ++ '\n' :: (date ++ '/' :: (region ++ "/s3/aws4_request\n".toList
    ++ Store.simple (sha256 (Utf8.encode canonical)).val)))

/-- What is signed: a request, the names of the headers in it that count, and what stands beside it. -/
structure Signing where
  request : Http.Request
  signed : List Text
  payloadHash : Text
  amzDate : Text
  date : Text
  region : Text
  named : ∀ name ∈ signed, ';' ∉ name

namespace Signing

def canonical (s : Signing) : Option Text := canonicalRequest s.request s.signed s.payloadHash

/-- The bytes under the signature. -/
def message (s : Signing) : Option (List UInt8) :=
  s.canonical.map fun c => Utf8.encode (stringToSign sha256 s.amzDate s.date s.region c)

/-- The signature of who holds the key. -/
def signature (secret : Text) (s : Signing) : Option (ByteArr 32) :=
  (s.message sha256).map (hmacSha256 (signingKey hmacSha256 secret s.date s.region))

end Signing

/-- What a request says it signs, and the header it says so in. -/
def signingOf (r : Http.Request) : Option (Signing × Parsed) := do
  let p ← (header r.headers "authorization".toList).bind parseAuthorization
  let (amzDate, _) ← requestTime r.headers
  let payloadHash ← header r.headers "x-amz-content-sha256".toList
  return (⟨r, p.signed, Text.trim payloadHash, amzDate, p.date, p.region, p.named⟩, p)

/-- `verify`. -/
def verify (creds : KeyPair) (r : Http.Request) (now : ℕ) : Except AuthError Unit := do
  let auth ← okOr (header r.headers "authorization".toList) .missing
  let p ← okOr (parseAuthorization auth) .malformed
  let (amzDate, secs) ← okOr (requestTime r.headers) .malformed
  require (amzDate.take 8 == p.date) .malformed
  require ((now - secs) + (secs - now) ≤ maxSkewSecs) .expired
  require (p.signed.contains "host".toList
    && (p.signed.contains "x-amz-date".toList || p.signed.contains "date".toList)) .malformed
  let payloadHash ← okOr (header r.headers "x-amz-content-sha256".toList) .malformed
  let canonical ← okOr (canonicalRequest r p.signed (Text.trim payloadHash)) .malformed
  let expected := hmacSha256 (signingKey hmacSha256 creds.secretKey p.date p.region)
    (Utf8.encode (stringToSign sha256 amzDate p.date p.region canonical))
  if p.accessKey = creds.accessKey then require (expected.val == p.signature) .badSignature
  else .error .unknownKey

end

end LogLess.SigV4
