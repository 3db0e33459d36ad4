import LogLess.Otlp.Http
import LogLess.Otlp.Proto

/-!
# The records of an export request

`decodeRequest` reads an `ExportLogsServiceRequest`: resources with the logs of their scopes. The
schema of a record is flat, so what is structured is written as text, and the attributes of a
resource go to each of its records.
-/

namespace LogLess.Otlp

open Frames (Bytes)
open Proto

/-- What is done with floats, which are bits here. -/
structure Floats where
  /-- `f64::to_string`. -/
  text : UInt64 → Text
  /-- `f64::from` of an `f32`. -/
  widen : UInt32 → UInt64
  /-- `as f64` of a `u64`. -/
  ofU64 : UInt64 → UInt64

def DEFAULT_SEVERITY : Severity := .INFO

/-- The severity of a record: its number, or else what its text says. -/
def severityOf (number : ℕ) (text : Option Text) : Severity :=
  if number = 0 then (text.bind Severity.fromText).getD DEFAULT_SEVERITY
  else ⟨UInt8.ofNat (min number 24)⟩

def strAttr (key : String) (value : Text) : Attr := ⟨key.toList, .str value⟩

/-! ## Fields -/

section

variable {σ : Type} (body : UInt32 → Field → σ → Except ProtoError σ)

def eachFieldFrom : ℕ → Reader → σ → Except ProtoError σ
  | 0, _, s => .ok s
  | fuel + 1, r, s =>
    match r.nextField with
    | .error e => .error e
    | .ok none => .ok s
    | .ok (some ((number, value), r)) =>
      match body number value s with
      | .error e => .error e
      | .ok s => eachFieldFrom fuel r s

/-- `while let Some((field, value)) = r.next_field()? { … }`. A field takes something of the
buffer. The messages of fields are opened from the reader the loop begins with: only its depth
matters, which is the same all the time. -/
def eachField (r : Reader) (s : σ) : Except ProtoError σ :=
  eachFieldFrom body (r.rest.length + 1) r s

end

def asI64 (f : Field) : ℤ := f.asU64.toInt64.toInt

def asF64 (fl : Floats) : Field → UInt64
  | .fixed64 v => v
  | .fixed32 v => fl.widen v
  | f => fl.ofU64 f.asU64

/-! ## Values -/

/-- `AnyValue`, with what is structured as text. -/
inductive Value where
  | empty
  | str (s : Text)
  | bool (b : Bool)
  | i64 (n : ℤ)
  | f64 (bits : UInt64)
  | structured (s : Text)
deriving DecidableEq

namespace Value

def intoAttr : Value → AttrValue
  | .str s => .str s
  | .structured s => .str s
  | .bool b => .bool b
  | .i64 n => .i64 n
  | .f64 bits => .f64 bits
  | .empty => .str []

def render (fl : Floats) : Value → Text
  | .empty => []
  | .str s => s
  | .structured s => s
  | .bool b => (if b then "true" else "false").toList
  | .i64 n => Decimal.ofInt n
  | .f64 bits => fl.text bits

end Value

section

variable (fl : Floats)

section

-- the values inside of a value
variable (anyValue : Reader → Except ProtoError Value) (r : Reader)

def keyValueField (number : UInt32) (v : Field) (s : Text × Value) :
    Except ProtoError (Text × Value) :=
  match number.toNat with
  | 1 => do
    let key ← v.string
    return (key, s.2)
  | 2 => do
    let m ← v.message r
    let value ← anyValue m
    return (s.1, value)
  | _ => return s

def keyValue : Except ProtoError (Option Attr) := do
  let (key, value) ← eachField (keyValueField anyValue r) r ([], .empty)
  return if key = [] then none else some ⟨key, value.intoAttr⟩

def arrayField (number : UInt32) (v : Field) (parts : List Text) :
    Except ProtoError (List Text) :=
  if number = 1 then do
    let m ← v.message r
    let value ← anyValue m
    return parts ++ [value.render fl]
  else return parts

def arrayValue : Except ProtoError Text := do
  let parts ← eachField (arrayField fl anyValue r) r []
  return '[' :: (List.intercalate ",".toList parts ++ [']'])

/-- `key=value`. -/
def pairText (attr : Attr) : Text := attr.key ++ '=' :: attr.value.toText fl.text

def kvlistField (number : UInt32) (v : Field) (parts : List Text) :
    Except ProtoError (List Text) :=
  if number = 1 then do
    let m ← v.message r
    let attr ← keyValue anyValue m
    return parts ++ (attr.map (pairText fl)).toList
  else return parts

def kvlistValue : Except ProtoError Text := do
  let parts ← eachField (kvlistField fl anyValue r) r []
  return '\x7b' :: (List.intercalate " ".toList parts ++ ['\x7d'])

def anyValueField (number : UInt32) (v : Field) (out : Value) : Except ProtoError Value :=
  match number.toNat with
  | 1 => do
    let s ← v.string
    return .str s
  | 2 => return .bool v.asBool
  | 3 => return .i64 (asI64 v)
  | 4 => return .f64 (asF64 fl v)
  | 5 => do
    let m ← v.message r
    let s ← arrayValue fl anyValue m
    return .structured s
  | 6 => do
    let m ← v.message r
    let s ← kvlistValue fl anyValue m
    return .structured s
  | 7 => return .structured (Store.simple v.payload)
  | _ => return out

end

/-- A value whose values are at most so many levels deep. -/
def anyValueIn : ℕ → Reader → Except ProtoError Value
  | 0, _ => .error (.tooDeep maxDepth)
  | levels + 1, r => eachField (anyValueField fl (anyValueIn levels) r) r .empty

/-- Every level is a message in a message, so that the depth of the readers ends it first. -/
def anyValue (r : Reader) : Except ProtoError Value := anyValueIn fl (maxDepth + 1) r

/-! ## Records -/

/-- An id of all zeros means that there is none. -/
def fixedId (n : ℕ) (bytes : Bytes) : Option (ByteArr n) :=
  if h : bytes.length = n then
    if bytes.all fun b => b = 0 then none else some ⟨bytes, h⟩
  else none

/-- What was read of a record. -/
structure Gathered where
  time : UInt64
  observed : UInt64
  severityNumber : UInt64
  severityText : Option Text
  body : Text
  attributes : List Attr
  traceId : Option (ByteArr 16)
  spanId : Option (ByteArr 8)
  eventName : Option Text
  /-- With what was dropped before. -/
  dropped : UInt64

def Gathered.start (dropped : ℕ) : Gathered :=
  ⟨0, 0, 0, none, [], [], none, none, none, .ofNat dropped⟩

/-- The time a record is filed under: its own, or else the other one. -/
def orTime (time other : UInt64) : UInt64 := if time ≠ 0 then time else other

/-- The record of what was read, which the names of its scope and service are still missing in. -/
def Gathered.finish (g : Gathered) (id : Uuid) (now : UInt64) : LogRecord where
  eventId := id
  timestampUnixNano := (orTime g.time (orTime g.observed now)).toNat
  observedUnixNano := (orTime g.observed now).toNat
  severity := severityOf g.severityNumber.toNat g.severityText
  severityText := g.severityText
  body := g.body
  service := none
  traceId := g.traceId
  spanId := g.spanId
  attributes := g.attributes ++ (g.eventName.map (strAttr "event.name")).toList
  templateId := none

/-- A text, unless it is empty. -/
def orText (text : Text) (before : Option Text) : Option Text :=
  if text = [] then before else some text

section

variable (r : Reader)

def recordField (number : UInt32) (v : Field) (g : Gathered) : Except ProtoError Gathered :=
  match number.toNat with
  | 1 => return { g with time := v.asU64 }
  | 2 => return { g with severityNumber := v.asU64 }
  | 3 => do
    let text ← v.string
    return { g with severityText := orText text g.severityText }
  | 5 => do
    let m ← v.message r
    let value ← anyValue fl m
    return { g with body := value.render fl }
  | 6 => do
    let m ← v.message r
    let attr ← keyValue (anyValue fl) m
    return { g with attributes := g.attributes ++ attr.toList }
  | 7 => return { g with dropped := g.dropped + v.asU64 }
  | 9 => return { g with traceId := fixedId 16 v.payload }
  | 10 => return { g with spanId := fixedId 8 v.payload }
  | 11 => return { g with observed := v.asU64 }
  | 12 => do
    let name ← v.string
    return { g with eventName := orText name g.eventName }
  | _ => return g

/-- A record, and how many attributes were dropped so far. -/
def logRecord (id : Uuid) (now : UInt64) (dropped : ℕ) : Except ProtoError (LogRecord × ℕ) := do
  let g ← eachField (recordField fl r) r (.start dropped)
  return (g.finish id now, g.dropped.toNat)

/-! ## Scopes and resources -/

/-- A record with what it has of its scope and its resource. -/
def inScope (resourceAttrs : List Attr) (service scopeName : Option Text) (record : LogRecord) :
    LogRecord :=
  { record with
    service := service
    attributes := record.attributes ++ (scopeName.map (strAttr "otel.scope.name")).toList
      ++ resourceAttrs }

def scopeNameField (number : UInt32) (v : Field) (name : Option Text) :
    Except ProtoError (Option Text) :=
  if number = 1 then do
    let text ← v.string
    return orText text name
  else return name

/-- The name of a scope, and its records, which are read when it is known. -/
def scopeField (number : UInt32) (v : Field) (s : Option Text × List Reader) :
    Except ProtoError (Option Text × List Reader) :=
  match number.toNat with
  | 1 => do
    let m ← v.message r
    let name ← eachField scopeNameField m s.1
    return (name, s.2)
  | 2 => do
    let m ← v.message r
    return (s.1, s.2 ++ [m])
  | _ => return s

variable (ids : ℕ → Uuid) (now : UInt64)

/-- One more record; `ids` are the ids that are drawn. -/
def addRecord (finish : LogRecord → LogRecord) (out : Decoded) (m : Reader) :
    Except ProtoError Decoded := do
  let (record, dropped) ← logRecord fl m (ids out.records.length) now out.droppedUpstream
  return ⟨out.records ++ [finish record], dropped⟩

def scopeLogs (resourceAttrs : List Attr) (service : Option Text) (out : Decoded) :
    Except ProtoError Decoded := do
  let (name, pending) ← eachField (scopeField r) r (none, [])
  pending.foldlM (addRecord fl ids now (inScope resourceAttrs service name)) out

/-- What was read of a resource. Its scopes can come before it. -/
structure Resource where
  attributes : List Attr
  service : Option Text
  dropped : UInt64

/-- The service an attribute names. -/
def serviceName (attr : Attr) : Option Text :=
  if attr.key = "service.name".toList then
    match attr.value with
    | .str s => some s
    | _ => none
  else none

def Resource.add (s : Resource) (attr : Attr) : Resource :=
  { s with
    attributes := s.attributes ++ [attr]
    service := (serviceName attr).or s.service }

def resourceField (number : UInt32) (v : Field) (s : Resource) : Except ProtoError Resource :=
  match number.toNat with
  | 1 => do
    let m ← v.message r
    let attr ← keyValue (anyValue fl) m
    return attr.elim s s.add
  | 2 => return { s with dropped := s.dropped + v.asU64 }
  | _ => return s

def resourceLogsField (number : UInt32) (v : Field) (s : Resource × List Reader) :
    Except ProtoError (Resource × List Reader) :=
  match number.toNat with
  | 1 => do
    let m ← v.message r
    let resource ← eachField (resourceField fl m) m s.1
    return (resource, s.2)
  | 2 => do
    let m ← v.message r
    return (s.1, s.2 ++ [m])
  | _ => return s

def resourceLogs (out : Decoded) : Except ProtoError Decoded := do
  let (resource, pending) ← eachField (resourceLogsField fl r) r
    (⟨[], none, .ofNat out.droppedUpstream⟩, [])
  pending.foldlM (fun out scope =>
    scopeLogs fl scope ids now resource.attributes resource.service out)
    { out with droppedUpstream := resource.dropped.toNat }

end

def requestField (r : Reader) (ids : ℕ → Uuid) (now : UInt64) (number : UInt32) (v : Field)
    (out : Decoded) : Except ProtoError Decoded :=
  if number = 1 then do
    let m ← v.message r
    resourceLogs fl m ids now out
  else return out

def decodeRequest (ids : ℕ → Uuid) (now : UInt64) (buf : Bytes) : Except ProtoError Decoded :=
  eachField (requestField fl (.new buf) ids now) (.new buf) ⟨[], 0⟩

end

end LogLess.Otlp
