import LogLess.Lib.Float64
import LogLess.Otlp.Logs
import LogLess.Sentry.Replay

/-!
# The records of a request in JSON

`decodeRequest` reads an `ExportLogsServiceRequest` in the JSON mapping. Nothing of it is refused
but a body that is not an object: what has another type than it should counts as missing.
-/

namespace LogLess.Otlp.JsonLogs

open Frames (Bytes)
open Sentry (get readArr)
open Serde (readStr readBool readInt readNat)

structure JsonFloats extends Floats where
  /-- `Number::as_f64`. -/
  number : Text → Option UInt64
  /-- `Value::to_string`. -/
  toText : Json.Value → Text
  toText_int : ∀ n : ℤ, toText (.num (Decimal.ofInt n)) = Decimal.ofInt n

inductive JsonError where
  | notJson
  | notAnObject
deriving DecidableEq

/-- A member under either of its names. -/
def field (v : Json.Value) (camel snake : String) : Option Json.Value :=
  (get v camel.toList).or (get v snake.toList)

def array (v : Json.Value) (camel snake : String) : List Json.Value :=
  ((field v camel snake).bind readArr).getD []

/-- A text that is not empty. -/
def textOf (v : Option Json.Value) : Option Text := (v.bind readStr).filter fun s => !s.isEmpty

section

variable (fl : JsonFloats)

def asF64 : Json.Value → Option UInt64
  | .num lexeme => fl.number lexeme
  | _ => none

/-- `as u64` of an `f64`, which saturates. -/
def toU64 (bits : UInt64) : ℕ := min (2 ^ 64 - 1) ⌊Float64.value bits⌋.toNat

/-- A text of digits, or a number. -/
def u64Field (v : Json.Value) (camel snake : String) : Option ℕ :=
  match field v camel snake with
  | some (.str s) => Decimal.parse s
  | some (.num lexeme) =>
    (readNat (2 ^ 64) (.num lexeme)).or ((fl.number lexeme).map toU64)
  | _ => none

/-! ## Values -/

theorem sizeOf_get {v x : Json.Value} {name : Text} (h : get v name = some x) :
    sizeOf x < sizeOf v := by
  unfold Sentry.get at h
  split at h
  · next members =>
    obtain ⟨m, hm, rfl⟩ := Option.map_eq_some_iff.mp h
    have hmem : m ∈ members := List.mem_reverse.mp (List.mem_of_find?_eq_some hm)
    have hlt := List.sizeOf_lt_of_mem hmem
    obtain ⟨key, x⟩ := m
    simp only [Prod.mk.sizeOf_spec, Json.Value.obj.sizeOf_spec] at hlt ⊢
    omega
  · cases h

theorem sizeOf_field {v x : Json.Value} {camel snake : String}
    (h : field v camel snake = some x) : sizeOf x < sizeOf v := by
  rcases Option.or_eq_some_iff.mp h with h | ⟨-, h⟩
  · exact sizeOf_get h
  · exact sizeOf_get h

/-- The `values` of an array or of a list of pairs. -/
def valuesOf (v : Json.Value) : List Json.Value := ((get v "values".toList).bind readArr).getD []

theorem sizeOf_values {v x y : Json.Value} {camel snake : String}
    (h : field v camel snake = some x) (hy : y ∈ valuesOf x) : sizeOf y < sizeOf v := by
  have hx := sizeOf_field h
  unfold valuesOf at hy
  cases hget : get x "values".toList with
  | none =>
    rw [hget] at hy
    cases hy
  | some a =>
    have ha := sizeOf_get hget
    rw [hget] at hy
    cases a with
    | arr items =>
      have hlt := List.sizeOf_lt_of_mem (show y ∈ items from hy)
      simp only [Json.Value.arr.sizeOf_spec] at ha
      omega
    | null => cases hy
    | bool b => cases hy
    | num lexeme => cases hy
    | str s => cases hy
    | obj members => cases hy

/-- A body, or what is structured, as text. -/
def anyValueToString (v : Json.Value) : Text :=
  match field v "stringValue" "string_value" with
  | some x => (readStr x).getD []
  | none =>
  match field v "boolValue" "bool_value" with
  | some x => (if (readBool x).getD false then "true" else "false").toList
  | none =>
  match field v "intValue" "int_value" with
  | some (.str s) => s
  | some x => fl.toText x
  | none =>
  match field v "doubleValue" "double_value" with
  | some x => ((asF64 fl x).map fl.text).getD []
  | none =>
  match _ha : field v "arrayValue" "array_value" with
  | some x =>
    '[' :: (List.intercalate ",".toList ((valuesOf x).attach.map fun y =>
      anyValueToString y.1) ++ [']'])
  | none =>
  match _hk : field v "kvlistValue" "kvlist_value" with
  | some x =>
    '\x7b' :: (List.intercalate " ".toList ((valuesOf x).attach.filterMap fun y =>
      ((get y.1 "key".toList).bind readStr).map fun key =>
        key ++ '=' :: (match _hy : get y.1 "value".toList with
          | some z => anyValueToString z
          | none => [])) ++ ['\x7d'])
  | none => ((field v "bytesValue" "bytes_value").bind readStr).getD []
termination_by sizeOf v
decreasing_by
  · exact sizeOf_values _ha y.2
  · exact (sizeOf_get _hy).trans (sizeOf_values _hk y.2)

/-- A value of one kind, which the name of its member says. -/
def anyValue (v : Json.Value) : AttrValue :=
  match field v "stringValue" "string_value" with
  | some x => .str ((readStr x).getD [])
  | none =>
  match field v "boolValue" "bool_value" with
  | some x => .bool ((readBool x).getD false)
  | none =>
  match field v "intValue" "int_value" with
  | some x =>
    .i64 ((match x with
      | .str s => Decimal.parseInt s
      | x => readInt x).getD 0)
  | none =>
  match field v "doubleValue" "double_value" with
  | some x => .f64 ((asF64 fl x).getD 0)
  | none => .str (anyValueToString fl v)

def keyValue (v : Json.Value) : Option Attr := do
  let key ← (get v "key".toList).bind readStr
  if key = [] then none
  else return ⟨key, ((get v "value".toList).map (anyValue fl)).getD (.str [])⟩

/-! ## Records -/

/-- The first numbers of the severities. -/
def severityWords : List (String × ℕ) :=
  [("TRACE", 1), ("DEBUG", 5), ("INFO", 9), ("WARN", 13), ("ERROR", 17), ("FATAL", 21)]

/-- The number of an enum name. The subtraction and the addition wrap around. -/
def severityFromEnumName (name : Text) : Option ℕ := do
  let name := asciiUpper (Text.trim name)
  let suffix := ("SEVERITY_NUMBER_".toList.isPrefixOf? name).getD name
  let word := suffix.takeWhile fun c => !c.isDigit
  let digits := suffix.dropWhile fun c => !c.isDigit
  let place ← if digits = [] then some 1 else Decimal.parse digits
  let (_, first) ← severityWords.find? fun w => w.1.toList == word
  return (first + place + (2 ^ 64 - 1)) % 2 ^ 64

/-- An id in hexadecimal digits. -/
def hexBytes (n : ℕ) (text : Text) : Option (ByteArr n) :=
  if text.len ≠ n * 2 ∨ ¬ text.all fun c => (Json.hexValue c).isSome then none
  else (Serde.unhex text).bind (fixedId n)

/-- What was dropped before, and what a message says it dropped. -/
def addCount (dropped : UInt64) (v : Json.Value) : UInt64 :=
  dropped + UInt64.ofNat (((field v "droppedAttributesCount" "dropped_attributes_count").bind
    (readNat (2 ^ 64))).getD 0)

def severityNumber (record : Json.Value) : ℕ :=
  match field record "severityNumber" "severity_number" with
  | some (.num lexeme) => (readNat (2 ^ 64) (.num lexeme)).getD 0
  | some (.str s) => (severityFromEnumName s).getD 0
  | _ => 0

def logRecord (record : Json.Value) (id : Uuid) (now : UInt64) : LogRecord :=
  let observed := ((u64Field fl record "observedTimeUnixNano" "observed_time_unix_nano").filter
    (· ≠ 0)).getD now.toNat
  let severityText := textOf (field record "severityText" "severity_text")
  { eventId := id
    timestampUnixNano :=
      ((u64Field fl record "timeUnixNano" "time_unix_nano").filter (· ≠ 0)).getD observed
    observedUnixNano := observed
    severity := severityOf (severityNumber record) severityText
    severityText := severityText
    body := ((get record "body".toList).map (anyValueToString fl)).getD []
    service := none
    traceId := ((field record "traceId" "trace_id").bind readStr).bind (hexBytes 16)
    spanId := ((field record "spanId" "span_id").bind readStr).bind (hexBytes 8)
    attributes := (array record "attributes" "attributes").filterMap (keyValue fl)
      ++ ((textOf (field record "eventName" "event_name")).map (strAttr "event.name")).toList
    templateId := none }

/-! ## Scopes and resources -/

variable (ids : ℕ → Uuid) (now : UInt64)

def addRecord (finish : LogRecord → LogRecord) (out : Decoded) (record : Json.Value) : Decoded :=
  match record with
  | .obj _ =>
    ⟨out.records ++ [finish (logRecord fl record (ids out.records.length) now)],
      (addCount (.ofNat out.droppedUpstream) record).toNat⟩
  | _ => out

def addScope (attrs : List Attr) (service : Option Text) (out : Decoded) (scope : Json.Value) :
    Decoded :=
  match scope with
  | .obj _ =>
    let name := textOf ((get scope "scope".toList).bind fun s => get s "name".toList)
    (array scope "logRecords" "log_records").foldl
      (addRecord fl ids now (inScope attrs service name)) out
  | _ => out

/-- The attributes of a resource, the service they name and what it dropped. -/
def resourceOf (v : Json.Value) (dropped : UInt64) : List Attr × Option Text × UInt64 :=
  match get v "resource".toList with
  | some (.obj members) =>
    let attrs := (array (.obj members) "attributes" "attributes").filterMap (keyValue fl)
    (attrs, attrs.foldl (fun service a => (serviceName a).or service) none,
      addCount dropped (.obj members))
  | _ => ([], none, dropped)

def addResource (out : Decoded) (v : Json.Value) : Decoded :=
  let (attrs, service, dropped) := resourceOf fl v (.ofNat out.droppedUpstream)
  let out := { out with droppedUpstream := dropped.toNat }
  match v with
  | .obj _ => (array v "scopeLogs" "scope_logs").foldl (addScope fl ids now attrs service) out
  | _ => out

/-- `fromSlice` is the parser of JSON. -/
def decodeRequest (fromSlice : Bytes → Option Json.Value) (body : Bytes) :
    Except JsonError Decoded :=
  match fromSlice body with
  | none => .error .notJson
  | some (.obj members) =>
    .ok ((array (.obj members) "resourceLogs" "resource_logs").foldl (addResource fl ids now)
      ⟨[], 0⟩)
  | some _ => .error .notAnObject

end

end LogLess.Otlp.JsonLogs
