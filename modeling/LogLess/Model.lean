import LogLess.Lib.Text
import Mathlib.Data.List.Basic
import Mathlib.Tactic

/-!
# The log data model

`LogRecord` and what it is made of, as the crate's `model` module has them. A Rust
`String` is the list of its characters (`Text`); the `u64` times, ids and counters are
natural numbers.
-/

namespace LogLess

/-- A Rust string: its characters, in order. -/
abbrev Text := List Char

/-- Length in bytes of the UTF-8 encoding, which is what `str::len` counts. -/
def Text.len (t : Text) : ℕ := (t.map Char.utf8Size).sum

/-- The sixteen bytes of a UUID. -/
structure Uuid where
  bytes : List UInt8
  length_bytes : bytes.length = 16
deriving DecidableEq

/-- A byte array of fixed length, `[u8; n]`. -/
abbrev ByteArr (n : ℕ) := { bytes : List UInt8 // bytes.length = n }

/-- OpenTelemetry severity number. -/
structure Severity where
  num : UInt8
deriving DecidableEq, Repr

/-- Coarse severity bucket: the order in which load shedding sacrifices data. -/
inductive LevelClass where
  | debug
  | info
  | warnPlus
deriving DecidableEq, Repr

/-- The place of a class in the derived order. -/
def LevelClass.rank : LevelClass → ℕ
  | .debug => 0
  | .info => 1
  | .warnPlus => 2

/-- `Severity::class`. Severity 0 is "unspecified" and counts as debug. -/
def Severity.class (s : Severity) : LevelClass :=
  if s.num ≤ 8 then .debug
  else if s.num ≤ 12 then .info
  else .warnPlus

def Severity.TRACE : Severity := ⟨1⟩
def Severity.DEBUG : Severity := ⟨5⟩
def Severity.INFO : Severity := ⟨9⟩
def Severity.WARN : Severity := ⟨13⟩
def Severity.ERROR : Severity := ⟨17⟩
def Severity.FATAL : Severity := ⟨21⟩

/-- The words that name a severity. -/
def severityNames : List (Severity × List String) :=
  [(.TRACE, ["trace", "trc", "verbose"]), (.DEBUG, ["debug", "dbg"]),
    (.INFO, ["info", "inf", "information", "notice"]), (.WARN, ["warn", "warning", "wrn"]),
    (.ERROR, ["error", "err", "severe"]),
    (.FATAL, ["fatal", "critical", "crit", "panic", "emergency", "alert"])]

/-- `Severity::from_text`. -/
def Severity.fromText (text : Text) : Option Severity :=
  let t := (Text.trim text).map Char.toLower
  (severityNames.find? fun (_, names) => names.any fun name => name.toList == t).map Prod.fst

/-- Attribute value. A float is kept as its bits: nothing here computes with it. -/
inductive AttrValue where
  | str (s : Text)
  | i64 (n : ℤ)
  | f64 (bits : UInt64)
  | bool (b : Bool)
deriving DecidableEq

/-- `f64::is_finite`: not all bits of the exponent are set. -/
def isFiniteBits (bits : UInt64) : Bool := bits.toNat / 2 ^ 52 % 2 ^ 11 != 2047

structure Attr where
  key : Text
  value : AttrValue
deriving DecidableEq

/-- A single normalised log record. -/
structure LogRecord where
  eventId : Uuid
  timestampUnixNano : ℕ
  observedUnixNano : ℕ
  severity : Severity
  severityText : Option Text
  body : Text
  service : Option Text
  traceId : Option (ByteArr 16)
  spanId : Option (ByteArr 8)
  attributes : List Attr
  templateId : Option ℕ
deriving DecidableEq

/-- `LogRecord::new`, with the event id `Uuid::now_v7` gave. -/
def LogRecord.new (eventId : Uuid) (timestampUnixNano : ℕ) (severity : Severity) (body : Text) :
    LogRecord where
  eventId := eventId
  timestampUnixNano := timestampUnixNano
  observedUnixNano := timestampUnixNano
  severity := severity
  severityText := none
  body := body
  service := none
  traceId := none
  spanId := none
  attributes := []
  templateId := none

def LogRecord.levelClass (r : LogRecord) : LevelClass := r.severity.class

/-- An `i64` holds this integer. -/
def AttrValue.intFits : AttrValue → Bool
  | .i64 n => -2 ^ 63 ≤ n ∧ n < 2 ^ 63
  | _ => true

/-- The integers of a record are in the range of their types. -/
def LogRecord.intsFit (r : LogRecord) : Bool :=
  r.timestampUnixNano < 2 ^ 64 && r.observedUnixNano < 2 ^ 64 &&
    r.templateId.all (fun n => n < 2 ^ 64) && r.attributes.all fun a => a.value.intFits

/-! ## Version 7 UUIDs -/

/-- Byte `i` of the 48-bit big-endian millisecond timestamp. -/
def timestampBytes (ms : ℕ) : List UInt8 :=
  [UInt8.ofNat (ms / 2 ^ 40), UInt8.ofNat (ms / 2 ^ 32), UInt8.ofNat (ms / 2 ^ 24),
    UInt8.ofNat (ms / 2 ^ 16), UInt8.ofNat (ms / 2 ^ 8), UInt8.ofNat ms]

/-- `Uuid::now_v7` at millisecond `ms`: the timestamp, then ten bytes that carry the
version, the variant and what the generator draws. -/
def Uuid.nowV7 (ms : ℕ) (rest : List UInt8) (h : rest.length = 10) : Uuid where
  bytes := timestampBytes ms ++ rest
  length_bytes := by simp [timestampBytes, h]

theorem length_zeros : (List.replicate 10 (0 : UInt8)).length = 10 := rfl

theorem length_zeros_concat (x : UInt8) : (List.replicate 9 0 ++ [x]).length = 10 := rfl

/-- Milliseconds below `2 ^ 48` are told apart by their six bytes. -/
theorem timestampBytes_inj {a b : ℕ} (ha : a < 2 ^ 48) (hb : b < 2 ^ 48) :
    timestampBytes a = timestampBytes b ↔ a = b := by
  refine ⟨fun h => ?_, fun h => by rw [h]⟩
  simp only [timestampBytes, List.cons.injEq, and_true, ← UInt8.toNat_inj,
    UInt8.toNat_ofNat'] at h
  omega

end LogLess
