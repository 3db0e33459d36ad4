import LogLess.Lib.Base64
import LogLess.Otlp.Json
import LogLess.Otlp.Messages

/-!
# The two encodings of a request

What a request is in JSON: its members in any order and among others, under either of their names,
numbers of 64 bits as numbers or as text. `decodeRequest_inJson`: it is read as what it means.

`encodings_agree`: the two encodings of a request come to the same records, if no value of it is of
bytes, which are text of another form in JSON, and no key in a list of pairs is empty.
-/

namespace LogLess.Otlp

open Frames (Bytes)
open JsonLogs
open Sentry (get readArr)
open Serde (readStr readBool readInt readNat)

/-! ## What is sent in JSON -/

/-- A member, which may be missing if there is nothing to say. -/
def optIn (o : Option Json.Value) (unset : Prop) (P : Json.Value → Prop) : Prop :=
  match o with
  | some v => P v
  | none => unset

/-- The names of the members that say which kind a value has. -/
def kinds : List (String × String) :=
  [("stringValue", "string_value"), ("boolValue", "bool_value"), ("intValue", "int_value"),
    ("doubleValue", "double_value"), ("arrayValue", "array_value"), ("kvlistValue", "kvlist_value"),
    ("bytesValue", "bytes_value")]

/-- A value has one kind. -/
def OneOf (v : Json.Value) (kind : String × String) (x : Json.Value) : Prop :=
  field v kind.1 kind.2 = some x ∧
    ∀ other ∈ kinds, other ≠ kind → field v other.1 other.2 = none

/-- An integer of 64 bits. -/
def IntIn (n : ℤ) (v : Json.Value) : Prop :=
  v = .str (Decimal.ofInt n) ∨ v = .num (Decimal.ofInt n)

section

variable (fl : JsonFloats)

mutual

def AnyValue.InJson : AnyValue → Json.Value → Prop
  | .empty, v => ∀ kind ∈ kinds, field v kind.1 kind.2 = none
  | .str s, v => OneOf v ("stringValue", "string_value") (.str s)
  | .bool b, v => OneOf v ("boolValue", "bool_value") (.bool b)
  | .int n, v => ∃ x, OneOf v ("intValue", "int_value") x ∧ IntIn n.toInt x
  | .double bits, v => ∃ lexeme, OneOf v ("doubleValue", "double_value") (.num lexeme) ∧
    fl.number lexeme = some bits
  | .array items, v => ∃ x vs, OneOf v ("arrayValue", "array_value") x ∧
    optIn (get x "values".toList) (vs = []) (· = .arr vs) ∧ ItemsInJson items vs
  | .kvlist pairs, v => ∃ x vs, OneOf v ("kvlistValue", "kvlist_value") x ∧
    optIn (get x "values".toList) (vs = []) (· = .arr vs) ∧ PairsInJson pairs vs
  | .bytes b, v => OneOf v ("bytesValue", "bytes_value") (.str (Base64.encode b))

def ItemsInJson : List AnyValue → List Json.Value → Prop
  | [], [] => True
  | a :: items, v :: vs => a.InJson v ∧ ItemsInJson items vs
  | _, _ => False

def PairsInJson : List (Text × AnyValue) → List Json.Value → Prop
  | [], [] => True
  | (key, a) :: pairs, v :: vs =>
    (get v "key".toList = some (.str key) ∧
      optIn (get v "value".toList) (a.isEmpty = true) (fun x => a.InJson x)) ∧
      PairsInJson pairs vs
  | _, _ => False

end

/-- A list, which may be missing if it is empty. -/
def ListIn (o : Option Json.Value) (P : List Json.Value → Prop) : Prop :=
  ∃ vs, optIn o (vs = []) (· = .arr vs) ∧ P vs

def TextIn (s : Text) (o : Option Json.Value) : Prop := optIn o (s = []) (· = .str s)

def TimeIn (t : UInt64) (o : Option Json.Value) : Prop :=
  optIn o (t = 0) (IntIn t.toNat)

def CountIn (n : UInt64) (o : Option Json.Value) : Prop :=
  optIn o (n = 0) (· = Serde.natValue n.toNat)

/-- An id in hexadecimal digits. -/
def IdIn (bytes : Bytes) (o : Option Json.Value) : Prop :=
  optIn o (bytes = []) fun v => ∃ s, v = .str s ∧ Serde.unhex s = some bytes

def severityName (n : ℕ) : Text :=
  match n with
  | 0 => "SEVERITY_NUMBER_UNSPECIFIED".toList
  | n + 1 =>
    "SEVERITY_NUMBER_".toList ++ ((severityWords.map Prod.fst)[n / 4]?.getD "").toList ++
      if n % 4 = 0 then [] else Decimal.ofNat (n % 4 + 1)

/-- The number of a severity, or its name. -/
def SeverityIn (n : UInt64) (o : Option Json.Value) : Prop :=
  optIn o (n = 0) fun v =>
    v = Serde.natValue n.toNat ∨ n.toNat ≤ 24 ∧ v = .str (severityName n.toNat)

structure LogMessage.InJson (m : LogMessage) (v : Json.Value) : Prop where
  isObject : ∃ members, v = .obj members
  time : TimeIn m.time (field v "timeUnixNano" "time_unix_nano")
  observed : TimeIn m.observed (field v "observedTimeUnixNano" "observed_time_unix_nano")
  severityNumber : SeverityIn m.severityNumber (field v "severityNumber" "severity_number")
  severityText : TextIn m.severityText (field v "severityText" "severity_text")
  body : optIn (get v "body".toList) (m.body.isEmpty = true) (m.body.InJson fl)
  attributes : ListIn (field v "attributes" "attributes") (PairsInJson fl m.attributes)
  dropped : CountIn m.dropped (field v "droppedAttributesCount" "dropped_attributes_count")
  traceId : IdIn m.traceId (field v "traceId" "trace_id")
  spanId : IdIn m.spanId (field v "spanId" "span_id")
  eventName : TextIn m.eventName (field v "eventName" "event_name")

structure ScopeMessage.InJson (m : ScopeMessage) (v : Json.Value) : Prop where
  isObject : ∃ members, v = .obj members
  name : TextIn m.name ((get v "scope".toList).bind fun s => get s "name".toList)
  records : ListIn (field v "logRecords" "log_records")
    (List.Forall₂ (LogMessage.InJson fl) m.records)

structure ResourceMessage.InJson (m : ResourceMessage) (v : Json.Value) : Prop where
  isObject : ∃ members, v = .obj members
  resource : optIn (get v "resource".toList) (m.attributes = [] ∧ m.dropped = 0) fun r =>
    (∃ members, r = .obj members) ∧
      ListIn (field r "attributes" "attributes") (PairsInJson fl m.attributes) ∧
      CountIn m.dropped (field r "droppedAttributesCount" "dropped_attributes_count")
  scopes : ListIn (field v "scopeLogs" "scope_logs")
    (List.Forall₂ (ScopeMessage.InJson fl) m.scopes)

structure RequestInJson (request : List ResourceMessage) (v : Json.Value) : Prop where
  isObject : ∃ members, v = .obj members
  resources : ListIn (field v "resourceLogs" "resource_logs")
    (List.Forall₂ (ResourceMessage.InJson fl) request)

end

/-! ## Values -/

/-- What becomes of values in JSON. -/
def jsonRendering : Rendering := ⟨Base64.encode, true⟩

section

variable {fl : JsonFloats}

theorem OneOf.absent {v x : Json.Value} {kind : String × String} (h : OneOf v kind x)
    (camel snake : String) (hmem : (camel, snake) ∈ kinds) (hne : (camel, snake) ≠ kind) :
    field v camel snake = none := h.2 _ hmem hne

/-- A value that is none of the kinds which attributes have. -/
structure Structured (v : Json.Value) : Prop where
  str : field v "stringValue" "string_value" = none
  bool : field v "boolValue" "bool_value" = none
  int : field v "intValue" "int_value" = none
  double : field v "doubleValue" "double_value" = none

theorem structured_of_kinds {v : Json.Value}
    (h : ∀ kind ∈ kinds.take 4, field v kind.1 kind.2 = none) : Structured v where
  str := h ("stringValue", "string_value") (by decide)
  bool := h ("boolValue", "bool_value") (by decide)
  int := h ("intValue", "int_value") (by decide)
  double := h ("doubleValue", "double_value") (by decide)

theorem OneOf.structured {v x : Json.Value} {kind : String × String} (h : OneOf v kind x)
    (hkind : kind ∈ kinds.drop 4) : Structured v := by
  have hne : ∀ kind ∈ kinds.drop 4, ∀ other ∈ kinds.take 4, other ≠ kind := by decide
  exact structured_of_kinds fun other ho =>
    h.2 other (List.mem_of_mem_take ho) (hne kind hkind other ho)

theorem Structured.anyValue {v : Json.Value} (h : Structured v) :
    JsonLogs.anyValue fl v = .str (anyValueToString fl v) := by
  rw [JsonLogs.anyValue]
  simp only [h.str, h.bool, h.int, h.double]

/-- Neither an array nor a list of pairs. -/
theorem Structured.bytes {v : Json.Value} (h : Structured v)
    (harray : field v "arrayValue" "array_value" = none)
    (hkvlist : field v "kvlistValue" "kvlist_value" = none) : anyValueToString fl v
      = ((field v "bytesValue" "bytes_value").bind readStr).getD [] := by
  rw [anyValueToString]
  simp only [h.str, h.bool, h.int, h.double]
  split
  · next hy =>
    rw [harray] at hy
    cases hy
  · split
    · next hy =>
      rw [hkvlist] at hy
      cases hy
    · rfl

theorem valuesOf_optIn {x : Json.Value} {vs : List Json.Value}
    (h : optIn (get x "values".toList) (vs = []) (· = .arr vs)) : valuesOf x = vs := by
  rw [valuesOf]
  cases hget : get x "values".toList with
  | none =>
    rw [hget] at h
    exact h.symm
  | some a =>
    rw [hget] at h
    obtain rfl : a = .arr vs := h
    rfl

variable (fl)

def pairString (y : Json.Value) : Option Text :=
  ((get y "key".toList).bind readStr).map fun key =>
    key ++ '=' :: ((get y "value".toList).map (anyValueToString fl)).getD []

variable {fl}

theorem anyValueToString_array {v x : Json.Value} (h : OneOf v ("arrayValue", "array_value") x) :
    anyValueToString fl v
      = '[' :: (List.intercalate ",".toList ((valuesOf x).map (anyValueToString fl)) ++ [']']) := by
  have hnone := h.structured (by decide)
  have harray : field v "arrayValue" "array_value" = some x := h.1
  rw [anyValueToString]
  simp only [hnone.str, hnone.bool, hnone.int, hnone.double]
  split
  · next y hy =>
    obtain rfl : x = y := Option.some.inj (harray.symm.trans hy)
    rw [List.attach_map_val]
  · next hy =>
    rw [harray] at hy
    cases hy

theorem anyValueToString_kvlist {v x : Json.Value}
    (h : OneOf v ("kvlistValue", "kvlist_value") x) : anyValueToString fl v
      = '\x7b' :: (List.intercalate " ".toList ((valuesOf x).filterMap (pairString fl))
        ++ ['\x7d']) := by
  have hnone := h.structured (by decide)
  have harray := h.absent "arrayValue" "array_value" (by decide) (by decide)
  have hkvlist : field v "kvlistValue" "kvlist_value" = some x := h.1
  rw [anyValueToString]
  simp only [hnone.str, hnone.bool, hnone.int, hnone.double]
  split
  · next y hy =>
    rw [harray] at hy
    cases hy
  · split
    · next y hy =>
      obtain rfl : x = y := Option.some.inj (hkvlist.symm.trans hy)
      rw [List.filterMap_subtype (g := pairString fl), List.unattach_attach]
      intro y hy
      rw [pairString]
      congr 1
      funext key
      cases hget : get y "value".toList with
      | none => split <;> simp_all
      | some z => split <;> simp_all
    · next hy =>
      rw [hkvlist] at hy
      cases hy

theorem text_of_isEmpty {a : AnyValue} (h : a.isEmpty = true) (rd : Rendering) :
    a.text fl.toFloats rd = [] := by
  cases a with
  | empty => rw [AnyValue.text]
  | str s => exact absurd h Bool.false_ne_true
  | bool b => exact absurd h Bool.false_ne_true
  | int n => exact absurd h Bool.false_ne_true
  | double bits => exact absurd h Bool.false_ne_true
  | array items => exact absurd h Bool.false_ne_true
  | kvlist pairs => exact absurd h Bool.false_ne_true
  | bytes b => exact absurd h Bool.false_ne_true

theorem optIn_value {o : Option Json.Value} {a : AnyValue} {P : Json.Value → Prop}
    {f : Json.Value → Text} (h : optIn o (a.isEmpty = true) P)
    (hP : ∀ v, P v → f v = a.text fl.toFloats jsonRendering) :
    (o.map f).getD [] = a.text fl.toFloats jsonRendering := by
  cases o with
  | some v => exact hP v h
  | none => exact (text_of_isEmpty h jsonRendering).symm

mutual

/-- A value is written as the text it means. -/
theorem anyValueToString_inJson (a : AnyValue) {v : Json.Value} (h : a.InJson fl v) :
    anyValueToString fl v = a.text fl.toFloats jsonRendering := by
  match a with
  | .empty =>
    rw [AnyValue.InJson] at h
    have hnone := structured_of_kinds fun kind hkind => h kind (List.mem_of_mem_take hkind)
    have harray : field v "arrayValue" "array_value" = none :=
      h ("arrayValue", "array_value") (by decide)
    have hkvlist : field v "kvlistValue" "kvlist_value" = none :=
      h ("kvlistValue", "kvlist_value") (by decide)
    have hbytes : field v "bytesValue" "bytes_value" = none :=
      h ("bytesValue", "bytes_value") (by decide)
    rw [hnone.bytes harray hkvlist, hbytes]
    rfl
  | .str s =>
    rw [AnyValue.InJson] at h
    have hstr : field v "stringValue" "string_value" = some (.str s) := h.1
    rw [anyValueToString]
    simp only [hstr]
    rfl
  | .bool b =>
    rw [AnyValue.InJson] at h
    have hstr := h.absent "stringValue" "string_value" (by decide) (by decide)
    have hbool : field v "boolValue" "bool_value" = some (.bool b) := h.1
    rw [anyValueToString]
    simp only [hstr, hbool]
    rfl
  | .int n =>
    rw [AnyValue.InJson] at h
    obtain ⟨x, h, hx⟩ := h
    have hstr := h.absent "stringValue" "string_value" (by decide) (by decide)
    have hbool := h.absent "boolValue" "bool_value" (by decide) (by decide)
    have hint : field v "intValue" "int_value" = some x := h.1
    rw [anyValueToString]
    simp only [hstr, hbool, hint]
    rcases hx with rfl | rfl
    · rfl
    · exact fl.toText_int n.toInt
  | .double bits =>
    rw [AnyValue.InJson] at h
    obtain ⟨lexeme, h, hlexeme⟩ := h
    have hstr := h.absent "stringValue" "string_value" (by decide) (by decide)
    have hbool := h.absent "boolValue" "bool_value" (by decide) (by decide)
    have hint := h.absent "intValue" "int_value" (by decide) (by decide)
    have hdouble : field v "doubleValue" "double_value" = some (.num lexeme) := h.1
    rw [anyValueToString]
    simp only [hstr, hbool, hint, hdouble, JsonLogs.asF64, hlexeme]
    rfl
  | .array items =>
    rw [AnyValue.InJson] at h
    obtain ⟨x, vs, h, hvs, hitems⟩ := h
    rw [anyValueToString_array h, valuesOf_optIn hvs, items_inJson items hitems, AnyValue.text]
  | .kvlist pairs =>
    rw [AnyValue.InJson] at h
    obtain ⟨x, vs, h, hvs, hpairs⟩ := h
    rw [anyValueToString_kvlist h, valuesOf_optIn hvs, pairs_inJson pairs hpairs, AnyValue.text]
  | .bytes b =>
    rw [AnyValue.InJson] at h
    have harray := h.absent "arrayValue" "array_value" (by decide) (by decide)
    have hkvlist := h.absent "kvlistValue" "kvlist_value" (by decide) (by decide)
    have hbytes : field v "bytesValue" "bytes_value" = some (.str (Base64.encode b)) := h.1
    rw [(h.structured (by decide)).bytes harray hkvlist, hbytes]
    rfl

theorem items_inJson (items : List AnyValue) {vs : List Json.Value} (h : ItemsInJson fl items vs) :
    vs.map (anyValueToString fl) = itemTexts fl.toFloats jsonRendering items := by
  match items, vs with
  | [], [] => rfl
  | [], v :: vs =>
    rw [ItemsInJson] at h
    · exact h.elim
    all_goals simp
  | a :: items, [] =>
    rw [ItemsInJson] at h
    · exact h.elim
    all_goals simp
  | a :: items, v :: vs =>
    rw [ItemsInJson] at h
    rw [List.map_cons, anyValueToString_inJson a h.1, items_inJson items h.2, itemTexts]

theorem pairs_inJson (pairs : List (Text × AnyValue)) {vs : List Json.Value}
    (h : PairsInJson fl pairs vs) :
    vs.filterMap (pairString fl) = pairTexts fl.toFloats jsonRendering pairs := by
  match pairs, vs with
  | [], [] => rfl
  | [], v :: vs =>
    rw [PairsInJson] at h
    · exact h.elim
    all_goals simp
  | (key, a) :: pairs, [] =>
    rw [PairsInJson] at h
    · exact h.elim
    all_goals simp
  | (key, a) :: pairs, v :: vs =>
    rw [PairsInJson] at h
    obtain ⟨⟨hkey, hvalue⟩, hrest⟩ := h
    have htext : ((get v "value".toList).map (anyValueToString fl)).getD []
        = a.text fl.toFloats jsonRendering := by
      refine optIn_value hvalue fun x hx => ?_
      exact anyValueToString_inJson a hx
    have hfirst : pairString fl v
        = some (key ++ '=' :: a.text fl.toFloats jsonRendering) := by
      rw [pairString, hkey, htext]
      rfl
    rw [List.filterMap_cons_some hfirst, pairs_inJson pairs hrest, pairTexts,
      if_neg fun h => Bool.noConfusion h.2]

end

theorem intFits (n : Int64) : (AttrValue.i64 n.toInt).intFits = true := by
  have hle := n.le_toInt
  have hlt := n.toInt_lt
  simp only [AttrValue.intFits, decide_eq_true_eq]
  exact ⟨hle, hlt⟩

theorem parseInt_ofInt {n : ℤ} (h : -2 ^ 63 ≤ n ∧ n < 2 ^ 63) :
    Decimal.parseInt (Decimal.ofInt n) = some n := by
  by_cases hneg : n < 0
  · have hdigits : (Decimal.ofNat n.natAbs).all Char.isDigit = true :=
      List.all_eq_true.mpr fun c hc => Decimal.isDigit_of_mem_ofNat hc
    have hne : Decimal.ofNat n.natAbs ≠ [] := by
      rw [Decimal.ofNat_eq_padded]
      exact Decimal.padded_ne_nil 0 _
    have hvalue : Nat.ofDigitChars 10 (Decimal.ofNat n.natAbs) 0 = n.natAbs := by
      rw [Decimal.ofNat_eq_padded, Decimal.ofDigitChars_padded]
    rw [Decimal.ofInt, if_pos hneg]
    show (if Decimal.ofNat n.natAbs ≠ [] ∧ (Decimal.ofNat n.natAbs).all Char.isDigit = true then
      _ else _) = _
    rw [if_pos ⟨hne, hdigits⟩]
    simp only [hvalue, if_true]
    rw [if_pos (by omega)]
    congr 1
    omega
  · have habs : ((n.natAbs : ℕ) : ℤ) = n := by omega
    rw [Decimal.ofInt, if_neg hneg, Decimal.ofNat_eq_padded, Decimal.parseInt_padded 0 (by omega),
      habs]

/-- A value of an attribute. -/
theorem anyValue_inJson {a : AnyValue} {v : Json.Value} (h : a.InJson fl v) :
    JsonLogs.anyValue fl v = a.attr fl.toFloats jsonRendering := by
  have htext := anyValueToString_inJson a h
  cases a with
  | str s =>
    rw [AnyValue.InJson] at h
    have hstr : field v "stringValue" "string_value" = some (.str s) := h.1
    rw [JsonLogs.anyValue]
    simp only [hstr]
    rfl
  | bool b =>
    rw [AnyValue.InJson] at h
    have hstr := h.absent "stringValue" "string_value" (by decide) (by decide)
    have hbool : field v "boolValue" "bool_value" = some (.bool b) := h.1
    rw [JsonLogs.anyValue]
    simp only [hstr, hbool]
    rfl
  | int n =>
    rw [AnyValue.InJson] at h
    obtain ⟨x, h, hx⟩ := h
    have hstr := h.absent "stringValue" "string_value" (by decide) (by decide)
    have hbool := h.absent "boolValue" "bool_value" (by decide) (by decide)
    have hint : field v "intValue" "int_value" = some x := h.1
    rw [JsonLogs.anyValue]
    simp only [hstr, hbool, hint]
    rcases hx with rfl | rfl
    · simp only [parseInt_ofInt ⟨n.le_toInt, n.toInt_lt⟩]
      rfl
    · simp only [Serde.readInt_ofInt (intFits n)]
      rfl
  | double bits =>
    rw [AnyValue.InJson] at h
    obtain ⟨lexeme, h, hlexeme⟩ := h
    have hstr := h.absent "stringValue" "string_value" (by decide) (by decide)
    have hbool := h.absent "boolValue" "bool_value" (by decide) (by decide)
    have hint := h.absent "intValue" "int_value" (by decide) (by decide)
    have hdouble : field v "doubleValue" "double_value" = some (.num lexeme) := h.1
    rw [JsonLogs.anyValue]
    simp only [hstr, hbool, hint, hdouble, JsonLogs.asF64, hlexeme]
    rfl
  | empty =>
    rw [AnyValue.InJson] at h
    have hnone := structured_of_kinds fun kind hkind => h kind (List.mem_of_mem_take hkind)
    rw [hnone.anyValue, htext]
    rfl
  | array items =>
    rw [AnyValue.InJson] at h
    obtain ⟨x, vs, h, -⟩ := h
    rw [(h.structured (by decide)).anyValue, htext]
    rfl
  | kvlist pairs =>
    rw [AnyValue.InJson] at h
    obtain ⟨x, vs, h, -⟩ := h
    rw [(h.structured (by decide)).anyValue, htext]
    rfl
  | bytes b =>
    rw [AnyValue.InJson] at h
    rw [(h.structured (by decide)).anyValue, htext]
    rfl

theorem attr_of_isEmpty {a : AnyValue} (h : a.isEmpty = true) :
    a.attr fl.toFloats jsonRendering = .str [] := by
  cases a with
  | empty => rfl
  | str s => exact absurd h Bool.false_ne_true
  | bool b => exact absurd h Bool.false_ne_true
  | int n => exact absurd h Bool.false_ne_true
  | double bits => exact absurd h Bool.false_ne_true
  | array items => exact absurd h Bool.false_ne_true
  | kvlist pairs => exact absurd h Bool.false_ne_true
  | bytes b => exact absurd h Bool.false_ne_true

theorem keyValue_inJson {key : Text} {a : AnyValue} {v : Json.Value}
    (hkey : get v "key".toList = some (.str key))
    (hvalue : optIn (get v "value".toList) (a.isEmpty = true) (fun x => a.InJson fl x)) :
    JsonLogs.keyValue fl v = attrOf fl.toFloats jsonRendering (key, a) := by
  have hattr : ((get v "value".toList).map (JsonLogs.anyValue fl)).getD (.str [])
      = a.attr fl.toFloats jsonRendering := by
    cases hget : get v "value".toList with
    | none =>
      rw [hget] at hvalue
      exact (attr_of_isEmpty hvalue).symm
    | some x =>
      rw [hget] at hvalue
      exact anyValue_inJson hvalue
  rw [JsonLogs.keyValue, hkey, hattr]
  rfl

theorem attrs_inJson {pairs : List (Text × AnyValue)} {vs : List Json.Value}
    (h : PairsInJson fl pairs vs) :
    vs.filterMap (JsonLogs.keyValue fl) = attrsOf fl.toFloats jsonRendering pairs := by
  induction pairs generalizing vs with
  | nil =>
    cases vs with
    | nil => rfl
    | cons v vs =>
      rw [PairsInJson] at h
      · exact h.elim
      all_goals simp
  | cons pair pairs ih =>
    obtain ⟨key, a⟩ := pair
    cases vs with
    | nil =>
      rw [PairsInJson] at h
      · exact h.elim
      all_goals simp
    | cons v vs =>
      rw [PairsInJson] at h
      rw [List.filterMap_cons, attrsOf, List.filterMap_cons, keyValue_inJson h.1.1 h.1.2, ih h.2]
      rfl

/-! ## Members -/

variable {v : Json.Value} {o : Option Json.Value} {camel snake : String}

theorem array_inJson {vs : List Json.Value}
    (h : optIn (field v camel snake) (vs = []) (· = .arr vs)) :
    JsonLogs.array v camel snake = vs := by
  rw [JsonLogs.array]
  cases hfield : field v camel snake with
  | none =>
    rw [hfield] at h
    exact h.symm
  | some x =>
    rw [hfield] at h
    obtain rfl : x = .arr vs := h
    rfl

theorem textOf_inJson {s : Text} (h : TextIn s o) : textOf o = orText s none := by
  cases o with
  | none =>
    obtain rfl : s = [] := h
    rfl
  | some v =>
    obtain rfl : v = .str s := h
    cases s <;> rfl

/-- A time, or else another one. -/
theorem u64Field_inJson {t : UInt64} (h : TimeIn t (field v camel snake)) (other : UInt64) :
    ((u64Field fl v camel snake).filter (· ≠ 0)).getD other.toNat = (orTime t other).toNat := by
  have hread : u64Field fl v camel snake = some t.toNat →
      ((u64Field fl v camel snake).filter (· ≠ 0)).getD other.toNat = (orTime t other).toNat := by
    intro hread
    rw [hread, orTime, Option.filter_some]
    by_cases hzero : t = 0
    · rw [hzero]
      rfl
    · have hne : t.toNat ≠ 0 := fun h => hzero (UInt64.toNat_inj.mp h)
      rw [if_pos hzero, if_pos (decide_eq_true hne)]
      rfl
  cases hfield : field v camel snake with
  | none =>
    rw [hfield] at h
    obtain rfl : t = 0 := h
    rw [u64Field, hfield]
    rfl
  | some x =>
    rw [hfield] at h
    refine hread ?_
    rcases h with rfl | rfl
    · rw [u64Field, hfield]
      show Decimal.parse (Decimal.ofInt t.toNat) = _
      rw [Serde.ofInt_natCast, Decimal.parse_ofNat t.toNat_lt]
    · rw [u64Field, hfield]
      show (readNat (2 ^ 64) (Serde.natValue t.toNat)).or _ = _
      rw [Serde.readNat_natValue t.toNat_lt, Option.some_or]

theorem addCount_inJson {n : UInt64}
    (h : CountIn n (field v "droppedAttributesCount" "dropped_attributes_count"))
    (dropped : UInt64) : addCount dropped v = dropped + n := by
  rw [addCount]
  cases hfield : field v "droppedAttributesCount" "dropped_attributes_count" with
  | none =>
    rw [hfield] at h
    obtain rfl : n = 0 := h
    rfl
  | some x =>
    rw [hfield] at h
    obtain rfl : x = Serde.natValue n.toNat := h
    rw [Option.bind_some, Serde.readNat_natValue n.toNat_lt, Option.getD_some, UInt64.ofNat_toNat]

theorem hexValue_ascii {c : Char} (h : (Json.hexValue c).isSome) : c.utf8Size = 1 := by
  rw [Char.utf8Size_eq_one_iff, UInt32.le_iff_toNat_le]
  show c.toNat ≤ 127
  rw [Json.hexValue] at h
  split at h
  · next hdigit =>
    rw [Char.isDigit_iff_toNat] at hdigit
    have hle : c.toNat ≤ '9'.toNat := hdigit.2
    have h9 : '9'.toNat = 57 := rfl
    omega
  · split at h
    · next hlower =>
      have hle : c.toNat ≤ 'f'.toNat := hlower.2
      have hf : 'f'.toNat = 102 := rfl
      omega
    · split at h
      · next hupper =>
        have hle : c.toNat ≤ 'F'.toNat := hupper.2
        have hf : 'F'.toNat = 70 := rfl
        omega
      · cases h

/-- Two digits for each byte. -/
theorem unhex_digits : ∀ {s : Text} {bytes : Bytes}, Serde.unhex s = some bytes →
    Text.len s = bytes.length * 2 ∧ (s.all fun c => (Json.hexValue c).isSome) = true
  | [], bytes, h => by
    cases h
    exact ⟨rfl, rfl⟩
  | [c], bytes, h => by
    cases h
  | a :: b :: rest, bytes, h => by
    rw [Serde.unhex] at h
    obtain ⟨x, hx, h⟩ := Option.bind_eq_some_iff.mp h
    obtain ⟨y, hy, h⟩ := Option.bind_eq_some_iff.mp h
    obtain ⟨more, hmore, h⟩ := Option.bind_eq_some_iff.mp h
    cases h
    obtain ⟨hlength, hall⟩ := unhex_digits hmore
    have ha : (Json.hexValue a).isSome := Option.isSome_of_eq_some hx
    have hb : (Json.hexValue b).isSome := Option.isSome_of_eq_some hy
    refine ⟨?_, ?_⟩
    · rw [Text.len] at hlength
      rw [Text.len, List.map_cons, List.map_cons, List.sum_cons, List.sum_cons, hlength,
        hexValue_ascii ha, hexValue_ascii hb, List.length_cons]
      omega
    · rw [List.all_cons, List.all_cons, ha, hb, hall]
      rfl

theorem hexBytes_inJson {bytes : Bytes} (h : IdIn bytes o) {n : ℕ} (hn : n ≠ 0) :
    (o.bind readStr).bind (hexBytes n) = fixedId n bytes := by
  cases o with
  | none =>
    obtain rfl : bytes = [] := h
    rw [fixedId, dif_neg fun heq => hn heq.symm]
    rfl
  | some v =>
    obtain ⟨s, rfl, hs⟩ := h
    obtain ⟨hlength, hall⟩ := unhex_digits hs
    show hexBytes n s = _
    rw [hexBytes]
    by_cases heq : bytes.length = n
    · rw [if_neg, hs, Option.bind_some]
      rw [hlength, heq, hall]
      simp
    · have hne : Text.len s ≠ n * 2 := by omega
      rw [if_pos (.inl hne), fixedId, dif_neg heq]

theorem severityFromEnumName_name : ∀ n < 25,
    (severityFromEnumName (severityName n)).getD 0 = n := by decide +kernel

theorem severityNumber_inJson {n : UInt64}
    (h : SeverityIn n (field v "severityNumber" "severity_number")) :
    severityNumber v = n.toNat := by
  rw [severityNumber]
  cases hfield : field v "severityNumber" "severity_number" with
  | none =>
    rw [hfield] at h
    obtain rfl : n = 0 := h
    rfl
  | some x =>
    rw [hfield] at h
    rcases h with rfl | ⟨hle, rfl⟩
    · show (readNat (2 ^ 64) (Serde.natValue n.toNat)).getD 0 = _
      rw [Serde.readNat_natValue n.toNat_lt, Option.getD_some]
    · exact severityFromEnumName_name n.toNat (by omega)

/-! ## Records, scopes and resources -/

theorem logRecord_inJson {m : LogMessage} (h : m.InJson fl v) (id : Uuid) (now : UInt64) :
    JsonLogs.logRecord fl v id now = m.record fl.toFloats jsonRendering id now := by
  obtain ⟨vs, hvs, hattributes⟩ := h.attributes
  have hbody : ((get v "body".toList).map (anyValueToString fl)).getD []
      = m.body.text fl.toFloats jsonRendering :=
    optIn_value h.body fun x hx => anyValueToString_inJson m.body hx
  rw [JsonLogs.logRecord, LogMessage.record]
  simp only [u64Field_inJson h.observed, u64Field_inJson h.time, textOf_inJson h.severityText,
    textOf_inJson h.eventName, severityNumber_inJson h.severityNumber, hbody, array_inJson hvs,
    attrs_inJson hattributes, hexBytes_inJson h.traceId (show 16 ≠ 0 by decide),
    hexBytes_inJson h.spanId (show 8 ≠ 0 by decide)]

theorem foldl_inJson {σ α : Type} {P : α → Json.Value → Prop} {act : σ → α → σ}
    {step : σ → Json.Value → σ} {messages : List α} {vs : List Json.Value}
    (h : List.Forall₂ P messages vs) (hstep : ∀ m v s, P m v → step s v = act s m) (s : σ) :
    vs.foldl step s = messages.foldl act s := by
  induction h generalizing s with
  | nil => rfl
  | cons hm h ih => rw [List.foldl_cons, List.foldl_cons, hstep _ _ s hm, ih]

theorem foldl_service (attrs : List Attr) (service : Option Text) :
    attrs.foldl (fun service a => (serviceName a).or service) service
      = (serviceOf attrs).or service := by
  induction attrs generalizing service with
  | nil => rfl
  | cons a attrs ih => rw [List.foldl_cons, ih, serviceOf_cons, Option.or_assoc]

variable (ids : ℕ → Uuid) (now : UInt64)

theorem addRecord_inJson {m : LogMessage} (h : m.InJson fl v) (finish : LogRecord → LogRecord)
    (out : Decoded) : JsonLogs.addRecord fl ids now finish out v
      = m.addTo fl.toFloats jsonRendering ids now finish out := by
  obtain ⟨members, rfl⟩ := h.isObject
  rw [JsonLogs.addRecord, LogMessage.addTo, logRecord_inJson h, addCount_inJson h.dropped]
  rfl

theorem addScope_inJson {m : ScopeMessage} (h : m.InJson fl v) (attrs : List Attr)
    (out : Decoded) : JsonLogs.addScope fl ids now attrs (serviceOf attrs) out v
      = m.addTo fl.toFloats jsonRendering ids now attrs out := by
  obtain ⟨members, rfl⟩ := h.isObject
  obtain ⟨vs, hvs, hrecords⟩ := h.records
  rw [JsonLogs.addScope, ScopeMessage.addTo]
  simp only [textOf_inJson h.name, array_inJson hvs]
  exact foldl_inJson hrecords (fun m v s hm => addRecord_inJson ids now hm _ s) out

theorem resourceOf_inJson {m : ResourceMessage} (h : m.InJson fl v) (dropped : UInt64) :
    resourceOf fl v dropped
      = (attrsOf fl.toFloats jsonRendering m.attributes,
        serviceOf (attrsOf fl.toFloats jsonRendering m.attributes), dropped + m.dropped) := by
  have hresource := h.resource
  rw [resourceOf]
  cases hget : get v "resource".toList with
  | none =>
    rw [hget] at hresource
    obtain ⟨hattributes, hdropped⟩ := hresource
    rw [hattributes, hdropped, UInt64.add_zero]
    rfl
  | some r =>
    rw [hget] at hresource
    obtain ⟨⟨members, rfl⟩, ⟨vs, hvs, hattributes⟩, hdropped⟩ := hresource
    simp only [array_inJson hvs, attrs_inJson hattributes, foldl_service, Option.or_none,
      addCount_inJson hdropped]

theorem addResource_inJson {m : ResourceMessage} (h : m.InJson fl v) (out : Decoded) :
    addResource fl ids now out v = m.addTo fl.toFloats jsonRendering ids now out := by
  obtain ⟨vs, hvs, hscopes⟩ := h.scopes
  rw [addResource, resourceOf_inJson h, ResourceMessage.addTo]
  obtain ⟨members, rfl⟩ := h.isObject
  simp only [array_inJson hvs]
  exact foldl_inJson hscopes (fun m v s hm => addScope_inJson ids now hm _ s) _

/-- The resources of a request, from any records that were read before. -/
theorem eachResource_inJson {request : List ResourceMessage} (h : RequestInJson fl request v)
    (out : Decoded) :
    (array v "resourceLogs" "resource_logs").foldl (addResource fl ids now) out
      = request.foldl (ResourceMessage.addTo fl.toFloats jsonRendering ids now) out := by
  obtain ⟨vs, hvs, hresources⟩ := h.resources
  rw [array_inJson hvs]
  exact foldl_inJson hresources (fun m v s hm => addResource_inJson ids now hm s) out

theorem decodeRequest_object {fromSlice : Bytes → Option Json.Value} {body : Bytes}
    (hbody : fromSlice body = some v) (hobject : ∃ members, v = .obj members) :
    JsonLogs.decodeRequest fl ids now fromSlice body
      = .ok ((array v "resourceLogs" "resource_logs").foldl (addResource fl ids now) ⟨[], 0⟩) := by
  obtain ⟨members, rfl⟩ := hobject
  rw [JsonLogs.decodeRequest, hbody]

end

/-! ## What both say -/

section

mutual

/-- A value that is written the same in both encodings. -/
def AnyValue.Plain : AnyValue → Prop
  | .array items => ItemsPlain items
  | .kvlist pairs => PairsPlain pairs
  | .bytes b => b = []
  | _ => True

def ItemsPlain : List AnyValue → Prop
  | [] => True
  | v :: vs => v.Plain ∧ ItemsPlain vs

def PairsPlain : List (Text × AnyValue) → Prop
  | [] => True
  | (key, v) :: pairs => (key ≠ [] ∧ v.Plain) ∧ PairsPlain pairs

end

structure LogMessage.Plain (m : LogMessage) : Prop where
  body : m.body.Plain
  attributes : ∀ a ∈ m.attributes, a.2.Plain

/-- Nothing but the service makes a difference in a resource, and no value of a record. -/
def Plain (request : List ResourceMessage) : Prop :=
  ∀ r ∈ request, (∀ a ∈ r.attributes, a.2.Plain) ∧ ∀ s ∈ r.scopes, ∀ m ∈ s.records, m.Plain

variable {fl : Floats}

mutual

theorem text_plain (a : AnyValue) (h : a.Plain) :
    a.text fl protoRendering = a.text fl jsonRendering := by
  match a with
  | .empty => rfl
  | .str s => rfl
  | .bool b => rfl
  | .int n => rfl
  | .double bits => rfl
  | .array items =>
    rw [AnyValue.Plain] at h
    rw [AnyValue.text, AnyValue.text, itemTexts_plain items h]
  | .kvlist pairs =>
    rw [AnyValue.Plain] at h
    rw [AnyValue.text, AnyValue.text, pairTexts_plain pairs h]
  | .bytes b =>
    rw [AnyValue.Plain] at h
    rw [h]
    rfl

theorem itemTexts_plain (items : List AnyValue) (h : ItemsPlain items) :
    itemTexts fl protoRendering items = itemTexts fl jsonRendering items := by
  match items with
  | [] => rfl
  | a :: items =>
    rw [ItemsPlain] at h
    rw [itemTexts, itemTexts, text_plain a h.1, itemTexts_plain items h.2]

theorem pairTexts_plain (pairs : List (Text × AnyValue)) (h : PairsPlain pairs) :
    pairTexts fl protoRendering pairs = pairTexts fl jsonRendering pairs := by
  match pairs with
  | [] => rfl
  | (key, a) :: pairs =>
    rw [PairsPlain] at h
    rw [pairTexts, pairTexts, if_neg fun hkey => h.1.1 hkey.1, if_neg fun hkey => h.1.1 hkey.1,
      text_plain a h.1.2, pairTexts_plain pairs h.2]

end

theorem attr_plain {a : AnyValue} (h : a.Plain) :
    a.attr fl protoRendering = a.attr fl jsonRendering := by
  have htext : a.text fl protoRendering = a.text fl jsonRendering := text_plain a h
  cases a with
  | bool b => rfl
  | int n => rfl
  | double bits => rfl
  | empty => exact congrArg AttrValue.str htext
  | str s => exact congrArg AttrValue.str htext
  | array items => exact congrArg AttrValue.str htext
  | kvlist pairs => exact congrArg AttrValue.str htext
  | bytes b => exact congrArg AttrValue.str htext

theorem attrsOf_plain {pairs : List (Text × AnyValue)} (h : ∀ a ∈ pairs, a.2.Plain) :
    attrsOf fl protoRendering pairs = attrsOf fl jsonRendering pairs := by
  refine List.filterMap_congr fun pair hpair => ?_
  rw [attrOf, attrOf, attr_plain (h pair hpair)]

variable (ids : ℕ → Uuid) (now : UInt64)

theorem record_plain {m : LogMessage} (h : m.Plain) (finish : LogRecord → LogRecord)
    (out : Decoded) : m.addTo fl protoRendering ids now finish out
      = m.addTo fl jsonRendering ids now finish out := by
  rw [LogMessage.addTo, LogMessage.addTo, LogMessage.record, LogMessage.record,
    text_plain m.body h.body, attrsOf_plain h.attributes]

theorem scope_plain {m : ScopeMessage} (h : ∀ r ∈ m.records, r.Plain) (attrs : List Attr)
    (out : Decoded) : m.addTo fl protoRendering ids now attrs out
      = m.addTo fl jsonRendering ids now attrs out := by
  rw [ScopeMessage.addTo, ScopeMessage.addTo]
  exact List.foldl_ext _ _ _ fun out r hr => record_plain ids now (h r hr) _ out

theorem meaning_plain {request : List ResourceMessage} (h : Plain request) (out : Decoded) :
    request.foldl (ResourceMessage.addTo fl protoRendering ids now) out
      = request.foldl (ResourceMessage.addTo fl jsonRendering ids now) out := by
  refine List.foldl_ext _ _ _ fun out m hm => ?_
  rw [ResourceMessage.addTo, ResourceMessage.addTo, attrsOf_plain (h m hm).1]
  exact List.foldl_ext _ _ _ fun out s hs => scope_plain ids now ((h m hm).2 s hs) _ out

end

/-- A request in JSON is read as what it means. -/
theorem decodeRequest_inJson (fl : JsonFloats) {request : List ResourceMessage} {v : Json.Value}
    {fromSlice : Bytes → Option Json.Value} {body : Bytes} (hbody : fromSlice body = some v)
    (h : RequestInJson fl request v) (ids : ℕ → Uuid) (now : UInt64) :
    JsonLogs.decodeRequest fl ids now fromSlice body
      = .ok (meaning fl.toFloats jsonRendering ids now request) := by
  rw [decodeRequest_object ids now hbody h.isObject, eachResource_inJson ids now h, meaning]

/-- `checkout` in JSON. -/
def checkoutJson : Json.Value :=
  let pair key kind value : Json.Value := .obj [("key".toList, .str key),
    ("value".toList, .obj [(kind, value)])]
  let values vs : Json.Value := .obj [("values".toList, .arr vs)]
  let body := .obj [("kvlistValue".toList, values
    [pair "code".toList "intValue".toList (.str "502".toList),
      pair "retry".toList "boolValue".toList (.bool true)])]
  let user := pair "user".toList "arrayValue".toList (values
    [.obj [("stringValue".toList, .str "a".toList)],
      .obj [("int_value".toList, .num "-1".toList)]])
  let record := .obj [("spanId".toList, .str "0101010101010101".toList), ("body".toList, body),
    ("time_unix_nano".toList, .str "7".toList), ("attributes".toList, .arr [user]),
    ("severityNumber".toList, .str "SEVERITY_NUMBER_ERROR".toList),
    ("droppedAttributesCount".toList, .num "2".toList)]
  let scope := .obj [("scope".toList, .obj [("name".toList, .str "app".toList)]),
    ("logRecords".toList, .arr [record])]
  let resource := .obj [("attributes".toList, .arr [pair "service.name".toList
    "stringValue".toList (.str "checkout".toList)]),
    ("dropped_attributes_count".toList, .num "1".toList)]
  .obj [("resourceLogs".toList, .arr [.obj [("scope_logs".toList, .arr [scope]),
    ("resource".toList, resource)]])]


theorem oneOf_single (kind : String × String) (h : kind ∈ kinds) (x : Json.Value) (name : String)
    (hname : name = kind.1 ∨ name = kind.2) : OneOf (.obj [(name.toList, x)]) kind x := by
  simp only [kinds, List.mem_cons, List.not_mem_nil, or_false] at h
  have hother : ∀ other ∈ kinds, other ≠ kind →
      field (.obj [(name.toList, x)]) other.1 other.2 = none := by
    intro other ho hne
    simp only [kinds, List.mem_cons, List.not_mem_nil, or_false] at ho
    rcases h with rfl | rfl | rfl | rfl | rfl | rfl | rfl <;>
      rcases hname with rfl | rfl <;>
      rcases ho with rfl | rfl | rfl | rfl | rfl | rfl | rfl <;>
      first | rfl | exact absurd rfl hne
  refine ⟨?_, hother⟩
  rcases h with rfl | rfl | rfl | rfl | rfl | rfl | rfl <;> rcases hname with rfl | rfl <;> rfl

def plainFloats : JsonFloats where
  text := fun _ => "0".toList
  widen := UInt32.toUInt64
  ofU64 := id
  number := fun _ => none
  toText := Json.render
  toText_int := fun _ => rfl


theorem text_inJson (s : Text) : (AnyValue.str s).InJson plainFloats
    (.obj [("stringValue".toList, .str s)]) := by
  rw [AnyValue.InJson]
  exact oneOf_single _ (by decide) _ _ (.inl rfl)

theorem checkout_inJson : RequestInJson plainFloats checkout checkoutJson := by
  have hkvlist : (AnyValue.kvlist [("code".toList, .int 502), ("retry".toList, .bool true)]).InJson
      plainFloats (.obj [("kvlistValue".toList, .obj [("values".toList, .arr
        [.obj [("key".toList, .str "code".toList),
            ("value".toList, .obj [("intValue".toList, .str "502".toList)])],
          .obj [("key".toList, .str "retry".toList),
            ("value".toList, .obj [("boolValue".toList, .bool true)])]])])]) := by
    rw [AnyValue.InJson]
    refine ⟨_, _, oneOf_single _ (by decide) _ _ (.inl rfl), rfl, ?_⟩
    rw [PairsInJson, PairsInJson, PairsInJson]
    refine ⟨⟨rfl, ?_⟩, ⟨rfl, ?_⟩, trivial⟩
    · show (AnyValue.int 502).InJson plainFloats _
      rw [AnyValue.InJson]
      exact ⟨_, oneOf_single _ (by decide) _ _ (.inl rfl),
        .inl (congrArg Json.Value.str (by decide))⟩
    · show (AnyValue.bool true).InJson plainFloats _
      rw [AnyValue.InJson]
      exact oneOf_single _ (by decide) _ _ (.inl rfl)
  have harray : (AnyValue.array [.str "a".toList, .int (-1)]).InJson plainFloats
      (.obj [("arrayValue".toList, .obj [("values".toList, .arr
        [.obj [("stringValue".toList, .str "a".toList)],
          .obj [("int_value".toList, .num "-1".toList)]])])]) := by
    rw [AnyValue.InJson]
    refine ⟨_, _, oneOf_single _ (by decide) _ _ (.inl rfl), rfl, ?_⟩
    rw [ItemsInJson, ItemsInJson, ItemsInJson]
    refine ⟨text_inJson _, ?_, trivial⟩
    rw [AnyValue.InJson]
    exact ⟨_, oneOf_single _ (by decide) _ _ (.inr rfl), .inr (congrArg Json.Value.num (by decide))⟩
  have hpair : ∀ {key : Text} {a : AnyValue} {x : Json.Value}, a.InJson plainFloats x →
      PairsInJson plainFloats [(key, a)]
        [.obj [("key".toList, .str key), ("value".toList, x)]] := by
    intro key a x h
    rw [PairsInJson, PairsInJson]
    exact ⟨⟨rfl, h⟩, trivial⟩
  refine ⟨⟨_, rfl⟩, _, rfl, .cons ⟨⟨_, rfl⟩, ?_, _, rfl,
    .cons ⟨⟨_, rfl⟩, rfl, _, rfl, .cons ?_ .nil⟩ .nil⟩ .nil⟩
  · exact ⟨⟨_, rfl⟩, ⟨_, rfl, hpair (text_inJson _)⟩, rfl⟩
  · exact ⟨⟨_, rfl⟩, .inl rfl, rfl, .inr ⟨by decide, rfl⟩, rfl, hkvlist, ⟨_, rfl, hpair harray⟩,
      rfl, rfl, ⟨_, rfl, rfl⟩, rfl⟩

/-- The parser, for a text in UTF-8. -/
def readJson (bytes : Bytes) : Option Json.Value := (Utf8.strict bytes).bind Json.parse

theorem readJson_render {v : Json.Value} (h : v.valid = true) :
    readJson (Utf8.encode (Json.render v)) = some v := by
  rw [readJson, Utf8.strict_encode, Option.bind_some, Json.parse_render h]

theorem decodeRequest_inJson_checkout :
    JsonLogs.decodeRequest plainFloats eventId 9 readJson (Utf8.encode (Json.render checkoutJson))
      = .ok (meaning plainFloats.toFloats jsonRendering eventId 9 checkout) := by
  have hvalid : checkoutJson.valid = true := by decide +kernel
  exact decodeRequest_inJson plainFloats (readJson_render hvalid) checkout_inJson eventId 9

/-- The records of a request are the same in both encodings. -/
theorem encodings_agree (fl : JsonFloats) {request : List ResourceMessage} {bytes body : Bytes}
    {v : Json.Value} {fromSlice : Bytes → Option Json.Value} (hplain : Plain request)
    (hproto : RequestSent request bytes) (hshallow : Shallow request)
    (hbody : fromSlice body = some v) (hjson : RequestInJson fl request v) (ids : ℕ → Uuid)
    (now : UInt64) : ∃ out, decodeRequest fl.toFloats ids now bytes = .ok out ∧
      JsonLogs.decodeRequest fl ids now fromSlice body = .ok out := by
  refine ⟨_, eachRequest_sent hproto hshallow ids now ⟨[], 0⟩, ?_⟩
  rw [decodeRequest_object ids now hbody hjson.isObject, eachResource_inJson ids now hjson,
    meaning_plain ids now hplain]

theorem checkout_plain : Plain checkout := by
  have hbody : (AnyValue.kvlist
      [("code".toList, .int 502), ("retry".toList, .bool true)]).Plain := by
    simp [AnyValue.Plain, PairsPlain]
  have huser : (AnyValue.array [.str "a".toList, .int (-1)]).Plain := by
    simp [AnyValue.Plain, ItemsPlain]
  intro r hr
  obtain rfl := List.mem_singleton.mp hr
  refine ⟨fun a ha => ?_, fun s hs m hm => ?_⟩
  · obtain rfl := List.mem_singleton.mp ha
    simp [AnyValue.Plain]
  · obtain rfl := List.mem_singleton.mp hs
    obtain rfl := List.mem_singleton.mp hm
    exact ⟨hbody, fun a ha => List.mem_singleton.mp ha ▸ huser⟩

theorem encodings_agree_checkout : ∃ out,
    decodeRequest plainFloats.toFloats eventId 9 (encodeRequest checkout) = .ok out ∧
    JsonLogs.decodeRequest plainFloats eventId 9 readJson
      (Utf8.encode (Json.render checkoutJson)) = .ok out := by
  have hsize : (encodeRequest checkout).length < 2 ^ 64 := by decide +kernel
  have hvalid : checkoutJson.valid = true := by decide +kernel
  exact encodings_agree plainFloats checkout_plain (requestSent_encode hsize) checkout_shallow
    (readJson_render hvalid) checkout_inJson eventId 9

end LogLess.Otlp
