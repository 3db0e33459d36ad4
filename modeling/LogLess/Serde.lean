import LogLess.Lib.Json
import LogLess.Lib.Utf8
import LogLess.Store.Catalog

/-!
# A record as a line of JSON

`serde_json::to_vec` and `from_slice` on a `LogRecord`, as its derived implementations have
it: a struct is an object (or, read, a list of its fields in order), a value of an attribute
an object with one member that names the variant. Unknown members are ignored, a known one
twice is an error, and an absent one is `None` where the field is an `Option`.

How a float is printed, and what is read where one is expected, is a parameter: the crate is
built without `float_roundtrip`, so a float need not come back as it was. One that is not
finite is written as `null` and is not read at all.
-/

namespace LogLess.Serde

open Json

/-- The decimal text of finite floats, and floats read from numbers. -/
structure FloatText where
  write : UInt64 → Text
  read : Text → Option UInt64
  /-- What is written for a finite float is a number. -/
  isNumber_write : ∀ bits, isFiniteBits bits = true → isNumber (write bits) = true

/-! ## Writing -/

/-- `Uuid::hyphenated`. -/
def hyphenated (u : Uuid) : Text :=
  let h := fun (i n : ℕ) => Store.simple ((u.bytes.drop i).take n)
  h 0 4 ++ '-' :: (h 4 2 ++ '-' :: (h 6 2 ++ '-' :: (h 8 2 ++ '-' :: h 10 6)))

def natValue (n : ℕ) : Value := .num (Decimal.ofInt n)

def optValue {α : Type} (f : α → Value) : Option α → Value
  | none => .null
  | some a => f a

def bytesValue (bytes : List UInt8) : Value := .arr (bytes.map fun b => natValue b.toNat)

section

variable (fl : FloatText)

def attrValueValue : AttrValue → Value
  | .str s => .obj [("Str".toList, .str s)]
  | .i64 n => .obj [("I64".toList, .num (Decimal.ofInt n))]
  | .f64 bits =>
    .obj [("F64".toList, if isFiniteBits bits then .num (fl.write bits) else .null)]
  | .bool b => .obj [("Bool".toList, .bool b)]

def attrToValue (a : Attr) : Value :=
  .obj [("key".toList, .str a.key), ("value".toList, attrValueValue fl a.value)]

def recordMembers (r : LogRecord) : List (Text × Value) :=
  [("event_id".toList, .str (hyphenated r.eventId)),
    ("timestamp_unix_nano".toList, natValue r.timestampUnixNano),
    ("observed_unix_nano".toList, natValue r.observedUnixNano),
    ("severity".toList, natValue r.severity.num.toNat),
    ("severity_text".toList, optValue .str r.severityText),
    ("body".toList, .str r.body),
    ("service".toList, optValue .str r.service),
    ("trace_id".toList, optValue (fun b => bytesValue b.val) r.traceId),
    ("span_id".toList, optValue (fun b => bytesValue b.val) r.spanId),
    ("attributes".toList, .arr (r.attributes.map (attrToValue fl))),
    ("template_id".toList, optValue natValue r.templateId)]

def recordToValue (r : LogRecord) : Value := .obj (recordMembers fl r)

/-- `serde_json::to_vec`. -/
def toVec (r : LogRecord) : List UInt8 := Utf8.encode (render (recordToValue fl r))

end

/-! ## Reading -/

def readDigits (bound : ℕ) (lexeme : Text) : Option ℕ :=
  if lexeme.all Char.isDigit ∧ Nat.ofDigitChars 10 lexeme 0 < bound then
    some (Nat.ofDigitChars 10 lexeme 0)
  else none

/-- An unsigned integer below a bound. -/
def readNat (bound : ℕ) : Value → Option ℕ
  | .num lexeme => readDigits bound lexeme
  | _ => none

/-- An `i64`. Minus zero is a float. -/
def readInt : Value → Option ℤ
  | .num ('-' :: digits) =>
    (readDigits (2 ^ 63 + 1) digits).bind fun n => if n = 0 then none else some (-n)
  | .num digits => (readDigits (2 ^ 63) digits).map Int.ofNat
  | _ => none

def readStr : Value → Option Text
  | .str s => some s
  | _ => none

def readBool : Value → Option Bool
  | .bool b => some b
  | _ => none

/-- A field that may be `None`. -/
def readOpt {α : Type} (read : Value → Option α) : Value → Option (Option α)
  | .null => some none
  | v => (read v).map some

def readByte (v : Value) : Option UInt8 := (readNat 256 v).map UInt8.ofNat

def readBytes (n : ℕ) : Value → Option (ByteArr n)
  | .arr vs => do
    let bytes ← vs.mapM readByte
    if h : bytes.length = n then some ⟨bytes, h⟩ else none
  | _ => none

def unhex : Text → Option (List UInt8)
  | a :: b :: rest => do
    let x ← hexValue a
    let y ← hexValue b
    let bytes ← unhex rest
    return UInt8.ofNat (x * 16 + y) :: bytes
  | [] => some []
  | _ => none

/-- The digits of the hyphenated form. -/
def unhyphen (t : Text) : Option Text :=
  match Text.splitAt '-' t with
  | [a, b, c, d, e] =>
    if a.length = 8 ∧ b.length = 4 ∧ c.length = 4 ∧ d.length = 4 ∧ e.length = 12 then
      some (a ++ b ++ c ++ d ++ e)
    else none
  | _ => none

/-- `Uuid::parse_str`: 32 digits, or hyphenated, perhaps in braces or as a urn. -/
def parseUuid (t : Text) : Option Uuid := do
  let digits ←
    if t.length = 32 then some t
    else if t.length = 38 ∧ t.head? = some '{' ∧ t.getLast? = some '}' then
      unhyphen t.tail.dropLast
    else if t.length = 45 ∧ t.take 9 = "urn:uuid:".toList then unhyphen (t.drop 9)
    else unhyphen t
  let bytes ← unhex digits
  if h : bytes.length = 16 then some ⟨bytes, h⟩ else none

def readUuid (v : Value) : Option Uuid := (readStr v).bind parseUuid

/-- The fields of a struct by name: an object without a field twice, or a list of them all. -/
def structFields (names : List Text) : Value → Option (List (Text × Value))
  | .obj ms =>
    let known := ms.filter fun m => names.contains m.1
    if (known.map Prod.fst).Nodup then some known else none
  | .arr vs => if vs.length = names.length then some (names.zip vs) else none
  | _ => none

def field {α : Type} (fields : List (Text × Value)) (name : String) (read : Value → Option α) :
    Option α := (Assoc.get fields name.toList).bind read

/-- A field of type `Option`, which may be absent. -/
def optField {α : Type} (fields : List (Text × Value)) (name : String)
    (read : Value → Option α) : Option (Option α) :=
  match Assoc.get fields name.toList with
  | none => some none
  | some v => readOpt read v

section

variable (fl : FloatText)

def readFloat : Value → Option UInt64
  | .num lexeme => fl.read lexeme
  | _ => none

def readAttrValue : Value → Option AttrValue
  | .obj [(name, v)] =>
    if name = "Str".toList then (readStr v).map .str
    else if name = "I64".toList then (readInt v).map .i64
    else if name = "F64".toList then (readFloat fl v).map .f64
    else if name = "Bool".toList then (readBool v).map .bool
    else none
  | _ => none

def attrFields : List Text := ["key", "value"].map String.toList

def readAttr (v : Value) : Option Attr := do
  let fields ← structFields attrFields v
  let key ← field fields "key" readStr
  let value ← field fields "value" (readAttrValue fl)
  return ⟨key, value⟩

def readAttrs : Value → Option (List Attr)
  | .arr vs => vs.mapM (readAttr fl)
  | _ => none

def recordFields : List Text :=
  ["event_id", "timestamp_unix_nano", "observed_unix_nano", "severity", "severity_text", "body",
    "service", "trace_id", "span_id", "attributes", "template_id"].map String.toList

def readRecord (v : Value) : Option LogRecord := do
  let fields ← structFields recordFields v
  let eventId ← field fields "event_id" readUuid
  let timestampUnixNano ← field fields "timestamp_unix_nano" (readNat (2 ^ 64))
  let observedUnixNano ← field fields "observed_unix_nano" (readNat (2 ^ 64))
  let severity ← field fields "severity" readByte
  let severityText ← optField fields "severity_text" readStr
  let body ← field fields "body" readStr
  let service ← optField fields "service" readStr
  let traceId ← optField fields "trace_id" (readBytes 16)
  let spanId ← optField fields "span_id" (readBytes 8)
  let attributes ← field fields "attributes" (readAttrs fl)
  let templateId ← optField fields "template_id" (readNat (2 ^ 64))
  return ⟨eventId, timestampUnixNano, observedUnixNano, ⟨severity⟩, severityText, body, service,
    traceId, spanId, attributes, templateId⟩

/-- `serde_json::from_slice::<LogRecord>`. -/
def fromSlice (bytes : List UInt8) : Option LogRecord := do
  let text ← Utf8.strict bytes
  let v ← parse text
  readRecord fl v

end

/-! ## What comes back -/

/-- What becomes of a float that is written and read. -/
def FloatText.reread (fl : FloatText) (bits : UInt64) : Option UInt64 :=
  if isFiniteBits bits then fl.read (fl.write bits) else none

def rereadValue (fl : FloatText) : AttrValue → Option AttrValue
  | .f64 bits => (fl.reread bits).map .f64
  | v => some v

def rereadAttr (fl : FloatText) (a : Attr) : Option Attr :=
  (rereadValue fl a.value).map fun v => ⟨a.key, v⟩

/-- A record with every float as it is read back. -/
def rereadRecord (fl : FloatText) (r : LogRecord) : Option LogRecord :=
  (r.attributes.mapM (rereadAttr fl)).map fun as => { r with attributes := as }

/-- Float texts that know zero only. -/
def zeroText : FloatText where
  write _ := ['0', '.', '0']
  read t := if t = ['0', '.', '0'] then some 0 else none
  isNumber_write _ _ := by decide

/-- Only a float can come back changed, or not at all. -/
theorem rereadAttr_eq_self {fl : FloatText} {a : Attr} :
    rereadAttr fl a = some a ↔ ∀ bits, a.value = .f64 bits →
      isFiniteBits bits = true ∧ fl.read (fl.write bits) = some bits := by
  obtain ⟨key, value⟩ := a
  cases value with
  | f64 bits =>
    simp only [rereadAttr, rereadValue, FloatText.reread, AttrValue.f64.injEq, forall_eq']
    split
    · next hfin =>
      cases hread : fl.read (fl.write bits) with
      | none => simp [hfin]
      | some x => simp [hfin]
    · next hfin => simp [hfin]
  | str s => simp [rereadAttr, rereadValue]
  | i64 n => simp [rereadAttr, rereadValue]
  | bool b => simp [rereadAttr, rereadValue]

/-! ## Reading scalars back -/

theorem readDigits_ofNat {n bound : ℕ} (h : n < bound) :
    readDigits bound (Decimal.ofNat n) = some n := by
  have hdigits : (Decimal.ofNat n).all Char.isDigit = true :=
    List.all_eq_true.mpr fun c hc => Decimal.isDigit_of_mem_ofNat hc
  have hval : Nat.ofDigitChars 10 (Decimal.ofNat n) 0 = n := Nat.ofDigitChars_ten_toDigits
  rw [readDigits, hval, if_pos ⟨hdigits, h⟩]

theorem lt_of_readNat {bound n : ℕ} {v : Value} (h : readNat bound v = some n) : n < bound := by
  unfold readNat at h
  split at h
  · unfold readDigits at h
    split at h
    · next hbound =>
      rw [← Option.some.inj h]
      exact hbound.2
    · cases h
  · cases h

theorem lt_of_field {fields : List (Text × Value)} {name : String} {bound n : ℕ}
    (h : field fields name (readNat bound) = some n) : n < bound := by
  obtain ⟨v, -, hv⟩ := Option.bind_eq_some_iff.mp h
  exact lt_of_readNat hv

theorem ofInt_natCast (n : ℕ) : Decimal.ofInt n = Decimal.ofNat n := by
  rw [Decimal.ofInt, if_neg (by omega), Int.natAbs_natCast]

theorem readNat_natValue {n bound : ℕ} (h : n < bound) :
    readNat bound (natValue n) = some n := by
  show readDigits bound (Decimal.ofInt n) = some n
  rw [ofInt_natCast, readDigits_ofNat h]

theorem readInt_ofInt {n : ℤ} (h : (AttrValue.i64 n).intFits = true) :
    readInt (.num (Decimal.ofInt n)) = some n := by
  have hfit : -2 ^ 63 ≤ n ∧ n < 2 ^ 63 := by simpa [AttrValue.intFits] using h
  by_cases hneg : n < 0
  · rw [Decimal.ofInt, if_pos hneg, readInt, readDigits_ofNat (by omega), Option.bind_some,
      if_neg (by omega)]
    exact congrArg some (by omega)
  · rw [Decimal.ofInt, if_neg hneg]
    unfold readInt
    split
    · next digits heq =>
      -- the text of a number that is not negative has no sign
      have hsign : '-' ∈ Decimal.ofNat n.natAbs := by
        rw [Value.num.inj heq]
        exact List.mem_cons_self
      exact absurd (Decimal.isDigit_of_mem_ofNat hsign) (by decide)
    · next digits _ heq =>
      rw [← Value.num.inj heq, readDigits_ofNat (by omega), Option.map_some]
      exact congrArg some (by simp only [Int.ofNat_eq_natCast]; omega)
    · next hnum => exact absurd rfl (hnum _)

theorem readByte_natValue (b : UInt8) : readByte (natValue b.toNat) = some b := by
  rw [readByte, readNat_natValue b.toNat_lt, Option.map_some, UInt8.ofNat_toNat]

theorem mapM_map_some {α β : Type} {f : α → β} {g : β → Option α} (h : ∀ a, g (f a) = some a)
    (as : List α) : (as.map f).mapM g = some as := by
  induction as with
  | nil => rfl
  | cons a as ih => simp [h, ih]

theorem readBytes_bytesValue {n : ℕ} (b : ByteArr n) :
    readBytes n (bytesValue b.val) = some b := by
  have hread := mapM_map_some (g := readByte) readByte_natValue b.val
  simp [readBytes, bytesValue, hread, b.property]

theorem length_simple (bytes : List UInt8) : (Store.simple bytes).length = 2 * bytes.length := by
  induction bytes with
  | nil => rfl
  | cons b bytes ih =>
    rw [Store.simple] at ih
    rw [Store.simple, List.flatMap_cons, List.length_append, ih]
    simp only [List.length_cons, List.length_nil]
    omega

theorem dash_notMem_simple (bytes : List UInt8) : '-' ∉ Store.simple bytes := by
  have hall : ∀ m < 16, Store.hexDigit m ≠ '-' := by decide
  simp only [Store.simple, List.mem_flatMap, List.mem_cons, List.not_mem_nil, or_false]
  rintro ⟨b, -, h | h⟩
  · exact hall _ (by have := b.toNat_lt; omega) h.symm
  · exact hall _ (by omega) h.symm

theorem unhex_simple (bytes : List UInt8) : unhex (Store.simple bytes) = some bytes := by
  induction bytes with
  | nil => rfl
  | cons b bytes ih =>
    have hb := b.toNat_lt
    have hhi : hexValue (Store.hexDigit (b.toNat / 16)) = some (b.toNat / 16) :=
      hexValue_hexChar (by omega)
    have hlo : hexValue (Store.hexDigit (b.toNat % 16)) = some (b.toNat % 16) :=
      hexValue_hexChar (by omega)
    have hbyte : UInt8.ofNat (b.toNat / 16 * 16 + b.toNat % 16) = b := by
      rw [Nat.div_add_mod', UInt8.ofNat_toNat]
    rw [Store.simple] at ih
    rw [Store.simple, List.flatMap_cons]
    simp only [List.cons_append, List.nil_append, unhex, hhi, hlo, ih, Option.bind_eq_bind,
      Option.bind_some, hbyte]
    rfl

theorem unhyphen_hyphenated (u : Uuid) : unhyphen (hyphenated u) = some (Store.simple u.bytes) := by
  have hlen := u.length_bytes
  have hsplit : Text.splitAt '-' (hyphenated u)
      = [Store.simple ((u.bytes.drop 0).take 4), Store.simple ((u.bytes.drop 4).take 2),
        Store.simple ((u.bytes.drop 6).take 2), Store.simple ((u.bytes.drop 8).take 2),
        Store.simple ((u.bytes.drop 10).take 6)] := by
    simp only [hyphenated, Text.splitAt_append (dash_notMem_simple _),
      Text.splitAt_of_notMem (dash_notMem_simple _)]
  have hparts : (u.bytes.drop 0).take 4 ++ (u.bytes.drop 4).take 2 ++ (u.bytes.drop 6).take 2
      ++ (u.bytes.drop 8).take 2 ++ (u.bytes.drop 10).take 6 = u.bytes := by
    rw [List.drop_zero, ← List.take_add, ← List.take_add, ← List.take_add, ← List.take_add]
    exact List.take_of_length_le (by omega)
  have happend : ∀ a b, Store.simple (a ++ b) = Store.simple a ++ Store.simple b := by
    intro a b
    simp [Store.simple]
  rw [unhyphen, hsplit]
  simp only [length_simple, List.length_take, List.length_drop, hlen]
  rw [if_pos (by decide), ← happend, ← happend, ← happend, ← happend, hparts]

theorem readUuid_hyphenated (u : Uuid) : readUuid (.str (hyphenated u)) = some u := by
  have hlen : (hyphenated u).length = 36 := by
    simp [hyphenated, length_simple, u.length_bytes]
  show parseUuid (hyphenated u) = some u
  rw [parseUuid, if_neg (by omega), if_neg (by omega), if_neg (by omega), unhyphen_hyphenated]
  simp [unhex_simple, u.length_bytes]

theorem readOpt_optValue {α : Type} {write : α → Value} {read : Value → Option α}
    (hnull : ∀ a, write a ≠ .null) {o : Option α} (h : ∀ a ∈ o, read (write a) = some a) :
    readOpt read (optValue write o) = some o := by
  cases o with
  | none => rfl
  | some a =>
    rw [optValue, readOpt.eq_2 _ _ (hnull a), h a rfl]
    rfl

/-! ## Reading a record back -/

theorem structFields_obj {names : List Text} (hnames : names.Nodup) {ms : List (Text × Value)}
    (h : ms.map Prod.fst = names) : structFields names (.obj ms) = some ms := by
  have hknown : ms.filter (fun m => names.contains m.1) = ms := by
    rw [List.filter_eq_self]
    intro m hm
    rw [List.contains_iff_mem, ← h]
    exact List.mem_map_of_mem hm
  simp only [structFields, hknown, h]
  exact if_pos hnames

section

variable (fl : FloatText)

theorem readAttrValue_attrValueValue {v : AttrValue} (h : v.intFits = true) :
    readAttrValue fl (attrValueValue fl v) = rereadValue fl v := by
  cases v with
  | str s => rfl
  | i64 n =>
    show (readInt (.num (Decimal.ofInt n))).map AttrValue.i64 = some (.i64 n)
    rw [readInt_ofInt h, Option.map_some]
  | f64 bits =>
    show (readFloat fl _).map AttrValue.f64 = (fl.reread bits).map AttrValue.f64
    rw [FloatText.reread]
    split <;> rfl
  | bool b => rfl

theorem readAttr_attrToValue {a : Attr} (h : a.value.intFits = true) :
    readAttr fl (attrToValue fl a) = rereadAttr fl a := by
  have hfields : structFields attrFields (attrToValue fl a)
      = some [("key".toList, .str a.key), ("value".toList, attrValueValue fl a.value)] :=
    structFields_obj (by decide) rfl
  rw [readAttr, hfields]
  show (readAttrValue fl (attrValueValue fl a.value)).bind (fun v => some (Attr.mk a.key v)) = _
  rw [readAttrValue_attrValueValue fl h, rereadAttr, Option.map_eq_bind]
  rfl

theorem readAttrs_attrToValue {as : List Attr} (h : ∀ a ∈ as, a.value.intFits = true) :
    readAttrs fl (.arr (as.map (attrToValue fl))) = as.mapM (rereadAttr fl) := by
  show (as.map (attrToValue fl)).mapM (readAttr fl) = _
  induction as with
  | nil => rfl
  | cons a as ih =>
    have ha := readAttr_attrToValue fl (h a List.mem_cons_self)
    have has := ih fun b hb => h b (List.mem_cons_of_mem a hb)
    simp only [List.map_cons, List.mapM_cons, ha, has]

theorem readRecord_recordToValue {r : LogRecord} (h : r.intsFit = true) :
    readRecord fl (recordToValue fl r) = rereadRecord fl r := by
  simp only [LogRecord.intsFit, Bool.and_eq_true, decide_eq_true_eq, List.all_eq_true] at h
  obtain ⟨⟨⟨hts, hobs⟩, htpl⟩, hattrs⟩ := h
  have hid : field (recordMembers fl r) "event_id" readUuid = some r.eventId :=
    readUuid_hyphenated r.eventId
  have hts : field (recordMembers fl r) "timestamp_unix_nano" (readNat (2 ^ 64))
      = some r.timestampUnixNano := readNat_natValue hts
  have hobs : field (recordMembers fl r) "observed_unix_nano" (readNat (2 ^ 64))
      = some r.observedUnixNano := readNat_natValue hobs
  have hsev : field (recordMembers fl r) "severity" readByte = some r.severity.num :=
    readByte_natValue r.severity.num
  have hbody : field (recordMembers fl r) "body" readStr = some r.body := rfl
  have hattrs : field (recordMembers fl r) "attributes" (readAttrs fl)
      = r.attributes.mapM (rereadAttr fl) := readAttrs_attrToValue fl hattrs
  have hsevText : optField (recordMembers fl r) "severity_text" readStr = some r.severityText :=
    readOpt_optValue (by simp) fun _ _ => rfl
  have hservice : optField (recordMembers fl r) "service" readStr = some r.service :=
    readOpt_optValue (by simp) fun _ _ => rfl
  have htrace : optField (recordMembers fl r) "trace_id" (readBytes 16) = some r.traceId :=
    readOpt_optValue (by simp [bytesValue]) fun b _ => readBytes_bytesValue b
  have hspan : optField (recordMembers fl r) "span_id" (readBytes 8) = some r.spanId :=
    readOpt_optValue (by simp [bytesValue]) fun b _ => readBytes_bytesValue b
  have htpl : optField (recordMembers fl r) "template_id" (readNat (2 ^ 64))
      = some r.templateId :=
    readOpt_optValue (by simp [natValue]) fun n hn => readNat_natValue (by simpa [Option.mem_def.mp hn] using htpl)
  have hfields : structFields recordFields (recordToValue fl r) = some (recordMembers fl r) :=
    structFields_obj (by decide) rfl
  rw [readRecord, hfields]
  simp only [Option.bind_eq_bind, Option.bind_some, hid, hts, hobs, hsev, hbody, hattrs, hsevText,
    hservice, htrace, hspan, htpl]
  rw [rereadRecord, Option.map_eq_bind]
  rfl

/-! ## What is written is one line of JSON -/

theorem validItems_map {α : Type} {f : α → Value} {as : List α}
    (h : ∀ a ∈ as, (f a).valid = true) : validItems (as.map f) = true := by
  induction as with
  | nil => rfl
  | cons a as ih =>
    rw [List.map_cons, validItems, h a List.mem_cons_self,
      ih fun b hb => h b (List.mem_cons_of_mem a hb)]
    rfl

theorem valid_natValue (n : ℕ) : (natValue n).valid = true := isNumber_ofInt n

theorem valid_optValue {α : Type} {f : α → Value} (h : ∀ a, (f a).valid = true) (o : Option α) :
    (optValue f o).valid = true := by
  cases o with
  | none => rfl
  | some a => exact h a

theorem valid_bytesValue (bytes : List UInt8) : (bytesValue bytes).valid = true :=
  validItems_map fun b _ => valid_natValue b.toNat

theorem valid_attrValueValue (v : AttrValue) : (attrValueValue fl v).valid = true := by
  cases v with
  | str s => rfl
  | i64 n => simp [attrValueValue, Value.valid, validMembers, isNumber_ofInt]
  | f64 bits =>
    rw [attrValueValue]
    split
    · next h => simp [Value.valid, validMembers, fl.isNumber_write bits h]
    · rfl
  | bool b => rfl

theorem valid_attrToValue (a : Attr) : (attrToValue fl a).valid = true := by
  simp [attrToValue, Value.valid, validMembers, valid_attrValueValue]

theorem valid_attrs (as : List Attr) : (Value.arr (as.map (attrToValue fl))).valid = true :=
  validItems_map fun a _ => valid_attrToValue fl a

theorem valid_recordToValue (r : LogRecord) : (recordToValue fl r).valid = true := by
  have hattrs := valid_attrs fl r.attributes
  have hstr : ∀ s, (Value.str s).valid = true := fun _ => rfl
  simp only [recordToValue, recordMembers, Value.valid, validMembers, valid_natValue,
    valid_optValue valid_natValue, valid_optValue hstr,
    valid_optValue fun b : ByteArr 16 => valid_bytesValue b.val,
    valid_optValue fun b : ByteArr 8 => valid_bytesValue b.val]
  simpa [Value.valid] using hattrs

/-- A record that is written and read has every float as it is read back. -/
theorem fromSlice_toVec {r : LogRecord} (h : r.intsFit = true) :
    fromSlice fl (toVec fl r) = rereadRecord fl r := by
  rw [fromSlice, toVec, Utf8.strict_encode, Option.bind_eq_bind, Option.bind_some,
    parse_render (valid_recordToValue fl r), Option.bind_eq_bind, Option.bind_some,
    readRecord_recordToValue fl h]

theorem le_of_mem_toVec {r : LogRecord} {b : UInt8} (h : b ∈ toVec fl r) : 0x20 ≤ b.toNat :=
  Utf8.le_of_mem_encode (fun _ hc => le_of_mem_render _ (valid_recordToValue fl r) hc) h

theorem toVec_eq_cons (r : LogRecord) : ∃ rest, toVec fl r = 0x7B :: rest := ⟨_, rfl⟩

end

end LogLess.Serde
