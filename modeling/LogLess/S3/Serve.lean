import LogLess.Lib.Civil
import LogLess.S3.Tokens

/-!
# Serving the store

`route` answers a request once the gate has said who it is from: an object, or a listing. The
gate itself looks at the request and the credentials and at nothing of the store, so what it
decides is an argument. Files of a tree can be opened and read.
-/

namespace LogLess.S3

/-! ## Requests -/

/-- The bytes that `percent_decode` decodes to. -/
def percentBytes (plusIsSpace : Bool) : Text → Option (List UInt8)
  | '%' :: a :: b :: rest => do
    let byte ← hexPair a b
    let bytes ← percentBytes plusIsSpace rest
    return byte :: bytes
  | '%' :: _ => none
  | c :: rest => do
    let bytes ← percentBytes plusIsSpace rest
    return (if c = '+' ∧ plusIsSpace then [0x20] else String.utf8EncodeChar c) ++ bytes
  | [] => some []

/-- `percent_decode`. -/
def percentDecode (s : Text) (plusIsSpace : Bool) : Option Text :=
  (percentBytes plusIsSpace s).bind Utf8.strict

/-- `parse_query`. -/
def parseQuery (raw : Text) : List (Text × Text) :=
  ((Text.splitAt '&' raw).filter fun pair => !pair.isEmpty).filterMap fun pair => do
    let (k, v) := (Text.splitOnce '=' pair).getD (pair, [])
    return (← percentDecode k true, ← percentDecode v true)

/-- `header`: the first with the name, in any case. -/
def header (headers : List (Text × Text)) (name : Text) : Option Text :=
  (headers.find? fun h => asciiLower h.1 = asciiLower name).map Prod.snd

/-! ## Replies -/

inductive Body where
  | bytes (text : Text)
  /-- What is read of a file. -/
  | stream (content : List UInt8)
  /-- A length that is advertised, with nothing sent. -/
  | head (len : ℕ)
deriving DecidableEq

structure Reply where
  status : ℕ
  headers : List (Text × Text)
  body : Body
deriving DecidableEq

def xmlEscape (s : Text) : Text :=
  s.flatMap fun c =>
    if c = '&' then "&amp;".toList
    else if c = '<' then "&lt;".toList
    else if c = '>' then "&gt;".toList
    else if c = '"' then "&quot;".toList
    else if c = '\'' then "&apos;".toList
    else [c]

def Reply.xml (status : ℕ) (body : Text) : Reply :=
  ⟨status, [("Content-Type".toList, "application/xml".toList)], .bytes body⟩

def Reply.with (r : Reply) (name value : Text) : Reply :=
  { r with headers := r.headers ++ [(name, value)] }

def hexPadded (width n : ℕ) : Text :=
  List.replicate (width - (Nat.toDigits 16 n).length) '0' ++ Nat.toDigits 16 n

def xmlHead : Text := "<?xml version=\"1.0\" encoding=\"UTF-8\"?>\n".toList

/-- `Reply::error`; `id` is the id of the request. -/
def Reply.error (id status : ℕ) (code message : Text) : Reply :=
  .xml status (xmlHead ++ "<Error><Code>".toList ++ xmlEscape code ++ "</Code><Message>".toList
    ++ xmlEscape message ++ "</Message><RequestId>".toList ++ hexPadded 16 id
    ++ "</RequestId></Error>".toList)

/-! ## Dates -/

def nanosPerSec : ℕ := 1000000000

/-- `unix_secs`. -/
def unixSecs (mtime : ℕ) : ℕ := mtime / nanosPerSec

def days : List Text := ["Sun", "Mon", "Tue", "Wed", "Thu", "Fri", "Sat"].map String.toList

def months : List Text :=
  ["Jan", "Feb", "Mar", "Apr", "May", "Jun", "Jul", "Aug", "Sep", "Oct", "Nov", "Dec"].map
    String.toList

/-- `http_date`. -/
def httpDate (secs : ℕ) : Text :=
  let (y, m, d) := Civil.civilFromDays (secs / 86400 : ℕ)
  let rem := secs % 86400
  days.getD ((secs / 86400 + 4) % 7) [] ++ ", ".toList ++ Decimal.padded 2 d ++ [' ']
    ++ months.getD (m - 1) [] ++ [' '] ++ Decimal.padded 4 y.toNat ++ [' ']
    ++ Decimal.padded 2 (rem / 3600) ++ [':'] ++ Decimal.padded 2 (rem % 3600 / 60) ++ [':']
    ++ Decimal.padded 2 (rem % 60) ++ " GMT".toList

/-- `parse_http_date`. -/
def parseHttpDate (v : Text) : Option ℕ :=
  match Text.splitWhitespace v with
  | [_, day, month, year, time, zone] => do
    guard (zone = "GMT".toList)
    let month ← months.findIdx? (· = month)
    let day ← (Decimal.parse day).filter fun d => 1 ≤ d ∧ d ≤ 31
    let year ← Decimal.parseInt year
    match Text.splitAt ':' time with
    | [h, m, s] => do
      let h ← Decimal.parse h
      let m ← Decimal.parse m
      let s ← Decimal.parse s
      guard (h ≤ 23 ∧ m ≤ 59 ∧ s ≤ 60)
      let days := Civil.daysFromCivil year (month + 1) day
      guard (0 ≤ days)
      return days.toNat * 86400 + h * 3600 + m * 60 + s
    | _ => none
  | _ => none

/-- `iso_date`. -/
def isoDate (mtime : ℕ) : Text :=
  let secs := unixSecs mtime
  let (y, m, day) := Civil.civilFromDays (secs / 86400 : ℕ)
  let rem := secs % 86400
  Decimal.padded 4 y.toNat ++ ['-'] ++ Decimal.padded 2 m ++ ['-'] ++ Decimal.padded 2 day ++ ['T']
    ++ Decimal.padded 2 (rem / 3600) ++ [':'] ++ Decimal.padded 2 (rem % 3600 / 60) ++ [':']
    ++ Decimal.padded 2 (rem % 60) ++ ['.'] ++ Decimal.padded 3 (mtime % nanosPerSec / 1000000)
    ++ ['Z']

/-! ## Objects -/

inductive RangeOutcome where
  | satisfiable (first last : ℕ)
  | unsatisfiable
  | ignore

/-- `parse_range`. -/
def parseRange (value : Text) (len : ℕ) : RangeOutcome :=
  let num := fun (s : Text) =>
    if !s.isEmpty && s.all Char.isDigit then Decimal.parse s else none
  match "bytes=".toList.isPrefixOf? (Text.trim value) with
  | none => .ignore
  | some spec =>
    if spec.contains ',' then .ignore
    else
      match Text.splitOnce '-' spec with
      | none => .ignore
      | some (first, last) =>
        match Text.trim first, Text.trim last with
        | [], n =>
          match num n with
          | none => .ignore
          | some n =>
            if n = 0 ∨ len = 0 then .unsatisfiable else .satisfiable (len - n) (len - 1)
        | a, [] =>
          match num a with
          | none => .ignore
          | some a => if len ≤ a then .unsatisfiable else .satisfiable a (len - 1)
        | a, b =>
          match num a, num b with
          | some a, some b =>
            if b < a then .ignore
            else if len ≤ a then .unsatisfiable
            else .satisfiable a (min b (len - 1))
          | _, _ => .ignore

def noSuchKey (id : ℕ) : Reply :=
  .error id 404 "NoSuchKey".toList "The specified key does not exist.".toList

def preconditionFailed (id : ℕ) : Reply :=
  .error id 412 "PreconditionFailed".toList
    "At least one of the pre-conditions you specified did not hold".toList

/-- `trim_start_matches("W/")`. -/
def stripWeak : Text → Text
  | 'W' :: '/' :: rest => stripWeak rest
  | t => t

section

variable (headers : List (Text × Text)) (f : FileData)

def FileData.etag : Text := S3.etag f.content.length f.mtime

def listValues (v : Text) : List Text := (Text.splitAt ',' v).map Text.trim

/-- `If-Match`, or else `If-Unmodified-Since`, does not hold. -/
def preconditionFails : Bool :=
  match header headers "if-match".toList with
  | some v => !(listValues v).any fun tag => tag = ['*'] || tag = f.etag
  | none => ((header headers "if-unmodified-since".toList).bind parseHttpDate).any
      fun since => since < unixSecs f.mtime

/-- `If-None-Match`, or else `If-Modified-Since`, says that the client has the file. -/
def notModified : Bool :=
  match header headers "if-none-match".toList with
  | some v => (listValues v).any fun tag => tag = ['*'] || stripWeak tag = f.etag
  | none => ((header headers "if-modified-since".toList).bind parseHttpDate).any
      fun since => unixSecs f.mtime ≤ since

/-- `If-Range` names the file as it is. -/
def rangeCurrent : Bool :=
  match header headers "if-range".toList with
  | none => true
  | some v =>
    let v := Text.trim v
    if ['"'].isPrefixOf v || "W/".toList.isPrefixOf v then v = f.etag
    else parseHttpDate v = some (unixSecs f.mtime)

/-- What `object` replies for an open file. -/
def serveFile (id : ℕ) (head : Bool) : Reply :=
  let len := f.content.length
  let hs := [("Content-Type".toList, "application/octet-stream".toList), ("ETag".toList, f.etag),
    ("Last-Modified".toList, httpDate (unixSecs f.mtime)),
    ("Accept-Ranges".toList, "bytes".toList)]
  let whole : Reply := ⟨200, hs, if head then .head len else .stream f.content⟩
  if preconditionFails headers f then preconditionFailed id
  else if notModified headers f then
    ⟨304, hs.filter fun h => decide (h.1 ≠ "Content-Type".toList), .bytes []⟩
  else
    match (header headers "range".toList).filter fun _ => rangeCurrent headers f with
    | none => whole
    | some range =>
      match parseRange range len with
      -- a malformed range, or several of them
      | .ignore => whole
      | .unsatisfiable =>
        (((Reply.error id 416 "InvalidRange".toList
          "The requested range is not satisfiable".toList).with "Content-Range".toList
            ("bytes */".toList ++ Decimal.ofNat len)).with "Accept-Ranges".toList
              "bytes".toList).with "ETag".toList f.etag
      | .satisfiable a b =>
        ⟨206, hs ++ [("Content-Range".toList, "bytes ".toList ++ Decimal.ofNat a ++ ['-']
            ++ Decimal.ofNat b ++ ['/'] ++ Decimal.ofNat len)],
          if head then .head (b - a + 1) else .stream ((f.content.drop a).take (b - a + 1))⟩

end

/-- The file that a key leads to. -/
def fileOf (t : Tree) (key : Text) : Option FileData := do
  let path ← resolve t key
  match t.kind? path with
  | some (.file f) => some f
  | _ => none

/-- `Inner::object`. -/
def object (id : ℕ) (head : Bool) (root : Tree) (keyRaw : Text) (headers : List (Text × Text)) :
    Reply :=
  match (percentDecode keyRaw false).bind (fileOf root) with
  | none => noSuchKey id
  | some f => serveFile headers f id head

/-! ## Listings -/

def xmlns : Text := "http://s3.amazonaws.com/doc/2006-03-01/".toList

def maxKeysCap : ℕ := 1000

/-- `url_encode_key`. -/
def urlEncodeKey (s : Text) : Text :=
  (Utf8.encode s).flatMap fun b =>
    let c := Char.ofNat b.toNat
    if b < 128 ∧ (c.isAlphanum ∨ c ∈ ['-', '_', '.', '~', '/']) then [c]
    else '%' :: ((hexPadded 2 b.toNat).map Char.toUpper)

/-- What a listing asks for, or why it is refused. -/
structure ListRequest where
  params : ListParams
  v2 : Bool
  urlEncode : Bool

def queryGet (query : List (Text × Text)) (name : Text) : Option Text :=
  (query.find? fun q => q.1 = name).map Prod.snd

/-- Whether a listing is of the second version. -/
def listTypeOf : Option Text → Except Text Bool
  | none => .ok false
  | some v =>
    if v = ['2'] then .ok true else .error "Invalid list-type specified in Request".toList

def encodingTypeOf : Option Text → Except Text Bool
  | none => .ok false
  | some v =>
    if v = "url".toList then .ok true
    else .error "Invalid Encoding Method specified in Request".toList

def maxKeysOf : Option Text → Except Text ℕ
  | none => .ok maxKeysCap
  | some v =>
    match (Decimal.parseInt v).filter fun n => 0 ≤ n with
    | some n => .ok (min n.toNat maxKeysCap)
    | none => .error "Provided max-keys not an integer or within integer range".toList

def continuationOf : Option Text → Except Text (Option Text)
  | none => .ok none
  | some token =>
    match decodeToken token with
    | some key => .ok (some key)
    | none => .error "The continuation token provided is incorrect".toList

/-- The part of `list_objects` that reads the query. -/
def listRequest (query : List (Text × Text)) : Except Text ListRequest := do
  let get := fun (name : String) => queryGet query name.toList
  let v2 ← listTypeOf (get "list-type")
  let urlEncode ← encodingTypeOf (get "encoding-type")
  let maxKeys ← maxKeysOf (get "max-keys")
  let token ← continuationOf ((get "continuation-token").filter fun _ => v2)
  -- a token resumes where the page before it stopped, and wins over where to start
  let marker := if v2 then token.or (get "start-after") else get "marker"
  return ⟨listParams ((get "prefix").getD []) (get "delimiter") marker maxKeys, v2, urlEncode⟩

/-- The document of a listing, from the lines of its page. -/
def listXml (bucket : Text) (query : List (Text × Text)) (r : ListRequest) (out : List ListUnit)
    (truncated : Bool) : Text :=
  let get := fun (name : String) => queryGet query name.toList
  let enc := fun (s : Text) => xmlEscape (if r.urlEncode then urlEncodeKey s else s)
  let tag := fun (name : String) (value : Text) =>
    ['<'] ++ name.toList ++ ['>'] ++ value ++ "</".toList ++ name.toList ++ ['>']
  let flag := fun (b : Bool) => if b then "true".toList else "false".toList
  let last := if truncated then out.getLast? else none
  xmlHead ++ "<ListBucketResult xmlns=\"".toList ++ xmlns ++ "\">".toList
    ++ tag "Name" (xmlEscape bucket) ++ tag "Prefix" (enc r.params.pfx)
    ++ (match r.params.delimiter with
      | some d => tag "Delimiter" (enc d)
      | none => [])
    ++ (if r.urlEncode then tag "EncodingType" "url".toList else [])
    ++ (if r.v2 then
        tag "KeyCount" (Decimal.ofNat out.length) ++ tag "MaxKeys" (Decimal.ofNat r.params.maxKeys)
          ++ tag "IsTruncated" (flag truncated)
          ++ (match get "continuation-token" with
            | some t => tag "ContinuationToken" (xmlEscape t)
            | none => [])
          ++ (match get "start-after" with
            | some s => tag "StartAfter" (enc s)
            | none => [])
          ++ (match last with
            | some u => tag "NextContinuationToken" (encodeToken u.text)
            | none => [])
      else
        tag "Marker" (enc ((get "marker").getD []))
          ++ tag "MaxKeys" (Decimal.ofNat r.params.maxKeys) ++ tag "IsTruncated" (flag truncated)
          ++ (match last.filter fun _ => r.params.delimiter.isSome with
            | some u => tag "NextMarker" (enc u.text)
            | none => []))
    ++ (out.flatMap fun u =>
        match u with
        | .key key size mtime etag => tag "Contents" (tag "Key" (enc key)
            ++ tag "LastModified" (isoDate mtime) ++ tag "ETag" (xmlEscape etag)
            ++ tag "Size" (Decimal.ofNat size) ++ tag "StorageClass" "STANDARD".toList)
        | .commonPrefix _ => [])
    ++ (out.flatMap fun u =>
        match u with
        | .key .. => []
        | .commonPrefix p => tag "CommonPrefixes" (tag "Prefix" (enc p)))
    ++ "</ListBucketResult>".toList

/-- `Inner::list_objects`. -/
def listObjects (id : ℕ) (bucket : Text) (root : Tree) (rawQuery : Text) (scope : ReadScope) :
    Reply :=
  let query := parseQuery rawQuery
  match listRequest query with
  | .error message => .error id 400 "InvalidArgument".toList message
  | .ok r =>
    let w := page r.params root scope
    .xml 200 (listXml bucket query r w.out w.truncated)

/-! ## Routing -/

/-- A tree that is served as a bucket, with the time its root was changed. -/
structure Bucket where
  name : Text
  root : Tree
  mtime : ℕ

structure Server where
  store : Bucket
  /-- The bucket of uploaded parts, where there is one. -/
  parts : Option Bucket

structure Request where
  method : Text
  rawPath : Text
  rawQuery : Text
  headers : List (Text × Text)

def outOfScope (id : ℕ) : Reply := .error id 403 "AccessDenied".toList "Access Denied".toList

/-- `list_buckets`. -/
def listBuckets (s : Server) (scope : ReadScope) : Reply :=
  let bucket := fun (b : Bucket) =>
    "<Bucket><Name>".toList ++ xmlEscape b.name ++ "</Name><CreationDate>".toList
      ++ isoDate b.mtime ++ "</CreationDate></Bucket>".toList
  .xml 200 (xmlHead ++ "<ListAllMyBucketsResult xmlns=\"".toList ++ xmlns
    ++ "\"><Owner><ID>log-less</ID><DisplayName>log-less</DisplayName></Owner><Buckets>".toList
    ++ bucket s.store ++ (s.parts.filter fun _ => scope.isWhole).elim [] bucket
    ++ "</Buckets></ListAllMyBucketsResult>".toList)

def locationXml : Text :=
  xmlHead ++ "<LocationConstraint xmlns=\"".toList ++ xmlns
    ++ "\">us-east-1</LocationConstraint>".toList

/-- `Inner::route`, with what the gate decided. -/
def route (s : Server) (id : ℕ) (access : Except Reply ReadScope) (req : Request) : Reply :=
  match access with
  | .error denied => denied
  | .ok scope =>
    if req.method ≠ "GET".toList ∧ req.method ≠ "HEAD".toList then
      (Reply.error id 405 "MethodNotAllowed".toList
        "The specified method is not allowed against this resource".toList).with "Allow".toList
          "GET, HEAD".toList
    else
      let head : Bool := req.method = "HEAD".toList
      match ['/'].isPrefixOf? req.rawPath with
      | none => .error id 400 "InvalidURI".toList "Couldn't parse the specified URI".toList
      | some [] => if head then .xml 200 [] else listBuckets s scope
      | some rest =>
        let (bucketRaw, keyRaw) := (Text.splitOnce '/' rest).getD (rest, [])
        let named := percentDecode bucketRaw false
        match (if named = some s.store.name then some s.store
          else s.parts.filter fun b => named = some b.name) with
        | none => .error id 404 "NoSuchBucket".toList "The specified bucket does not exist".toList
        | some bucket =>
          -- uploaded parts are for readers of the whole store
          if bucket.name ≠ s.store.name ∧ ¬ scope.isWhole then outOfScope id
          else if keyRaw.isEmpty then
            let reply :=
              if head then .xml 200 []
              else if (parseQuery req.rawQuery).any fun q => q.1 = "location".toList then
                .xml 200 locationXml
              else listObjects id bucket.name bucket.root req.rawQuery scope
            reply.with "x-amz-bucket-region".toList "us-east-1".toList
          else if ¬ scope.isWhole ∧ ¬ (percentDecode keyRaw false).any scope.allows then
            outOfScope id
          else object id head bucket.root keyRaw req.headers

end LogLess.S3
