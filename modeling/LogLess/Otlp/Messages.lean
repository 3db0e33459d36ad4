import LogLess.Lib.Traces
import LogLess.Otlp.Logs

/-!
# The messages of an export request

A request as its messages, apart from any encoding: what a record of it means, and which bytes it is
sent as. The fields of a message are sent in any order, with others between them, except that the
fields of one number keep theirs; a field with the default value can be left out.

`decodeRequest_sent`: what is sent is read as what it means.
-/

namespace LogLess.Otlp

open Frames (Bytes)
open Proto

inductive AnyValue where
  | empty
  | str (s : Text)
  | bool (b : Bool)
  | int (n : Int64)
  | double (bits : UInt64)
  | array (items : List AnyValue)
  | kvlist (pairs : List (Text × AnyValue))
  | bytes (b : Bytes)

structure LogMessage where
  time : UInt64
  observed : UInt64
  severityNumber : UInt64
  severityText : Text
  body : AnyValue
  attributes : List (Text × AnyValue)
  dropped : UInt64
  traceId : Bytes
  spanId : Bytes
  eventName : Text

structure ScopeMessage where
  name : Text
  records : List LogMessage

structure ResourceMessage where
  attributes : List (Text × AnyValue)
  dropped : UInt64
  scopes : List ScopeMessage

/-! ## What is meant -/

/-- What the encodings write differently. -/
structure Rendering where
  bytes : Bytes → Text
  /-- Pairs without a key are written. -/
  unnamed : Bool

section

variable (fl : Floats) (rd : Rendering)

mutual

def AnyValue.text : AnyValue → Text
  | .empty => []
  | .str s => s
  | .bool b => (if b then "true" else "false").toList
  | .int n => Decimal.ofInt n.toInt
  | .double bits => fl.text bits
  | .array items => '[' :: (List.intercalate ",".toList (itemTexts items) ++ [']'])
  | .kvlist pairs => '\x7b' :: (List.intercalate " ".toList (pairTexts pairs) ++ ['\x7d'])
  | .bytes b => rd.bytes b

def itemTexts : List AnyValue → List Text
  | [] => []
  | v :: vs => v.text :: itemTexts vs

def pairTexts : List (Text × AnyValue) → List Text
  | [] => []
  | (key, v) :: pairs =>
    if key = [] ∧ rd.unnamed = false then pairTexts pairs
    else (key ++ '=' :: v.text) :: pairTexts pairs

end

def AnyValue.attr : AnyValue → AttrValue
  | .bool b => .bool b
  | .int n => .i64 n.toInt
  | .double bits => .f64 bits
  | v => .str (v.text fl rd)

def attrOf (pair : Text × AnyValue) : Option Attr :=
  if pair.1 = [] then none else some ⟨pair.1, pair.2.attr fl rd⟩

def attrsOf (pairs : List (Text × AnyValue)) : List Attr := pairs.filterMap (attrOf fl rd)

def LogMessage.record (m : LogMessage) (id : Uuid) (now : UInt64) : LogRecord where
  eventId := id
  timestampUnixNano := (orTime m.time (orTime m.observed now)).toNat
  observedUnixNano := (orTime m.observed now).toNat
  severity := severityOf m.severityNumber.toNat (orText m.severityText none)
  severityText := orText m.severityText none
  body := m.body.text fl rd
  service := none
  traceId := fixedId 16 m.traceId
  spanId := fixedId 8 m.spanId
  attributes := attrsOf fl rd m.attributes
    ++ ((orText m.eventName none).map (strAttr "event.name")).toList
  templateId := none

/-- The service that the last attribute names that names one. -/
def serviceOf (attrs : List Attr) : Option Text := (attrs.filterMap serviceName).getLast?

variable (ids : ℕ → Uuid) (now : UInt64)

/-- What was dropped, in a `u64`. -/
def addDropped (out : Decoded) (dropped : UInt64) : ℕ :=
  (UInt64.ofNat out.droppedUpstream + dropped).toNat

def LogMessage.addTo (finish : LogRecord → LogRecord) (out : Decoded) (m : LogMessage) : Decoded :=
  ⟨out.records ++ [finish (m.record fl rd (ids out.records.length) now)],
    addDropped out m.dropped⟩

def ScopeMessage.addTo (attrs : List Attr) (out : Decoded) (m : ScopeMessage) : Decoded :=
  m.records.foldl (LogMessage.addTo fl rd ids now
    (inScope attrs (serviceOf attrs) (orText m.name none))) out

def ResourceMessage.addTo (out : Decoded) (m : ResourceMessage) : Decoded :=
  m.scopes.foldl (ScopeMessage.addTo fl rd ids now (attrsOf fl rd m.attributes))
    { out with droppedUpstream := addDropped out m.dropped }

/-- The records of a request, each with what it has of its scope and its resource. -/
def meaning (request : List ResourceMessage) : Decoded :=
  request.foldl (ResourceMessage.addTo fl rd ids now) ⟨[], 0⟩

end

/-! ## What is sent -/

def message (fields : List (UInt32 × Field)) : Bytes := fields.flatMap encode

def Numbered (fields : List (UInt32 × Field)) : Prop :=
  ∀ f ∈ fields, 1 ≤ f.1.toNat ∧ f.1.toNat < 2 ^ 29

/-- A message of fields in any order, with fields of other numbers. -/
def Sent (numbers : List UInt32) (fields : List (UInt32 × Field)) (bytes : Bytes) : Prop :=
  ∃ sent, Traces.Rearranged Prod.fst numbers fields sent ∧ Numbered sent ∧ bytes = message sent

/-- A field that may be left out if it has the default value. -/
def optField (explicit : UInt32 → Bool) (unset : Bool) (f : UInt32 × Field) :
    List (UInt32 × Field) :=
  if unset && !explicit f.1 then [] else [f]

def textField (number : UInt32) (s : Text) : UInt32 × Field := (number, .bytes (Utf8.encode s))

mutual

def AnyValue.fields : AnyValue → List (UInt32 × Field)
  | .empty => []
  | .str s => [textField 1 s]
  | .bool b => [(2, .varint (if b then 1 else 0))]
  | .int n => [(3, .varint n.toUInt64)]
  | .double bits => [(4, .fixed64 bits)]
  | .array items => [(5, .bytes (message (itemFields items)))]
  | .kvlist pairs => [(6, .bytes (message (pairFields pairs)))]
  | .bytes b => [(7, .bytes b)]

def itemFields : List AnyValue → List (UInt32 × Field)
  | [] => []
  | v :: vs => (1, .bytes (message v.fields)) :: itemFields vs

def pairFields : List (Text × AnyValue) → List (UInt32 × Field)
  | [] => []
  | (key, v) :: pairs =>
    (1, .bytes (message [textField 1 key, (2, .bytes (message v.fields))])) :: pairFields pairs

end

def pairField (number : UInt32) (pair : Text × AnyValue) : UInt32 × Field :=
  (number, .bytes (message [textField 1 pair.1, (2, .bytes (message pair.2.fields))]))

mutual

/-- How many messages deep a value is. -/
def AnyValue.depth : AnyValue → ℕ
  | .array items => 1 + itemsDepth items
  | .kvlist pairs => 1 + pairsDepth pairs
  | _ => 0

def itemsDepth : List AnyValue → ℕ
  | [] => 0
  | v :: vs => max (1 + v.depth) (itemsDepth vs)

def pairsDepth : List (Text × AnyValue) → ℕ
  | [] => 0
  | (_, v) :: pairs => max (2 + v.depth) (pairsDepth pairs)

end

/-- The numbers of the fields of a record that are read. -/
def recordNumbers : List UInt32 := [1, 2, 3, 5, 6, 7, 9, 10, 11, 12]

def AnyValue.isEmpty : AnyValue → Bool
  | .empty => true
  | _ => false

def LogMessage.fields (m : LogMessage) (explicit : UInt32 → Bool) : List (UInt32 × Field) :=
  optField explicit (m.time = 0) (1, .fixed64 m.time)
    ++ (optField explicit (m.severityNumber = 0) (2, .varint m.severityNumber)
    ++ (optField explicit (m.severityText = []) (textField 3 m.severityText)
    ++ (optField explicit m.body.isEmpty (5, .bytes (message m.body.fields))
    ++ (m.attributes.map (pairField 6)
    ++ (optField explicit (m.dropped = 0) (7, .varint m.dropped)
    ++ (optField explicit (m.traceId = []) (9, .bytes m.traceId)
    ++ (optField explicit (m.spanId = []) (10, .bytes m.spanId)
    ++ (optField explicit (m.observed = 0) (11, .fixed64 m.observed)
    ++ optField explicit (m.eventName = []) (textField 12 m.eventName)))))))))

def LogMessage.SentAs (m : LogMessage) (bytes : Bytes) : Prop :=
  ∃ explicit, Sent recordNumbers (m.fields explicit) bytes

def partField (number : UInt32) (part : Bytes) : UInt32 × Field := (number, .bytes part)

def ScopeMessage.SentAs (m : ScopeMessage) (bytes : Bytes) : Prop :=
  ∃ explicit scope parts,
    Sent [1] (optField explicit (m.name = []) (textField 1 m.name)) scope ∧
    List.Forall₂ LogMessage.SentAs m.records parts ∧
    Sent [1, 2] (optField explicit (m.name = []) (1, .bytes scope) ++ parts.map (partField 2)) bytes

def ResourceMessage.SentAs (m : ResourceMessage) (bytes : Bytes) : Prop :=
  ∃ explicit resource parts,
    Sent [1, 2] (m.attributes.map (pairField 1)
      ++ optField explicit (m.dropped = 0) (2, .varint m.dropped)) resource ∧
    List.Forall₂ ScopeMessage.SentAs m.scopes parts ∧
    Sent [1, 2] (optField explicit (m.attributes.isEmpty && m.dropped = 0) (1, .bytes resource)
      ++ parts.map (partField 2)) bytes

/-- A request of less than `2 ^ 64` bytes. -/
def RequestSent (request : List ResourceMessage) (bytes : Bytes) : Prop :=
  bytes.length < 2 ^ 64 ∧ ∃ parts, List.Forall₂ ResourceMessage.SentAs request parts ∧
    Sent [1] (parts.map (partField 1)) bytes

/-- The values of a record are not too deep: the record is three messages deep in the request. -/
def LogMessage.Shallow (m : LogMessage) : Prop :=
  4 + m.body.depth ≤ maxDepth ∧ ∀ a ∈ m.attributes, 5 + a.2.depth ≤ maxDepth

def Shallow (request : List ResourceMessage) : Prop :=
  ∀ r ∈ request, (∀ a ∈ r.attributes, 4 + a.2.depth ≤ maxDepth) ∧
    ∀ s ∈ r.scopes, ∀ m ∈ s.records, m.Shallow

/-! ## Reading the fields of a message -/

theorem Numbered.nil : Numbered [] := List.forall_mem_nil _

theorem Numbered.cons {number : UInt32} {v : Field} {fields : List (UInt32 × Field)}
    (hnumber : 1 ≤ number.toNat ∧ number.toNat < 2 ^ 29) (h : Numbered fields) :
    Numbered ((number, v) :: fields) := List.forall_mem_cons.mpr ⟨hnumber, h⟩

theorem message_cons (f : UInt32 × Field) (fields : List (UInt32 × Field)) :
    message (f :: fields) = encode f ++ message fields := List.flatMap_cons

theorem payload_le (f : UInt32 × Field) : f.2.payload.length ≤ (encode f).length := by
  obtain ⟨number, v⟩ := f
  cases v with
  | bytes b =>
    rw [encode, List.length_append, List.length_append]
    exact (Nat.le_add_left _ _).trans (Nat.le_add_left _ _)
  | varint v => exact Nat.zero_le _
  | fixed64 v => exact Nat.zero_le _
  | fixed32 v => exact Nat.zero_le _

theorem payload_le_message {f : UInt32 × Field} {fields : List (UInt32 × Field)}
    (h : f ∈ fields) : f.2.payload.length ≤ (message fields).length := by
  induction fields with
  | nil => cases h
  | cons g fields ih =>
    rw [message_cons, List.length_append]
    rcases List.mem_cons.mp h with rfl | h
    · have := payload_le f
      omega
    · have := ih h
      omega

section

variable {σ : Type} {body : UInt32 → Field → σ → Except ProtoError σ}

theorem eachFieldFrom_message {fields : List (UInt32 × Field)}
    (hfields : ∀ f ∈ fields, Reader.Encodable f) {fuel : ℕ} {r : Reader}
    (hfuel : r.rest.length < fuel) (h : r.rest = message fields) (s : σ) :
    eachFieldFrom body fuel r s = fields.foldlM (fun s f => body f.1 f.2 s) s := by
  induction fields generalizing fuel r s with
  | nil =>
    obtain ⟨fuel, rfl⟩ := Nat.exists_eq_add_one_of_ne_zero (Nat.ne_zero_of_lt hfuel)
    have hempty : r.isEmpty = true := by
      have := List.drop_eq_nil_iff.mp h
      rw [Reader.isEmpty, decide_eq_true this]
    rw [eachFieldFrom, Reader.nextField, hempty, if_pos rfl]
    rfl
  | cons f fields ih =>
    obtain ⟨fuel, rfl⟩ := Nat.exists_eq_add_one_of_ne_zero (Nat.ne_zero_of_lt hfuel)
    obtain ⟨number, v⟩ := f
    rw [message_cons] at h
    obtain ⟨r', hnext, hrest⟩ := Reader.nextField_encode (hfields _ List.mem_cons_self) h
    have hlt := Reader.rest_lt (Reader.nextField_eq_ok hnext).1
    rw [eachFieldFrom, hnext, List.foldlM_cons]
    cases hbody : body number v s with
    | error e =>
      simp only [hbody]
      rfl
    | ok s' =>
      simp only [hbody]
      exact ih (fun g hg => hfields g (List.mem_cons_of_mem _ hg)) (by omega) hrest s'

theorem eachField_message {fields : List (UInt32 × Field)} (hnumbers : Numbered fields)
    {r : Reader} (h : r.rest = message fields) (hsize : r.rest.length < 2 ^ 64) (s : σ) :
    eachField body r s = fields.foldlM (fun s f => body f.1 f.2 s) s := by
  refine eachFieldFrom_message (fun f hf => ⟨hnumbers f hf, ?_⟩) (Nat.lt_succ_self _) h s
  exact (payload_le_message hf).trans_lt (h ▸ hsize)

variable (body)

/-- What a field that can be read comes to. -/
def done (s : σ) (f : UInt32 × Field) : σ :=
  match body f.1 f.2 s with
  | .ok s => s
  | .error _ => s

/-- The order of fields with different numbers makes no difference. -/
def Independent : Prop := ∀ (s : σ) (f g : UInt32 × Field), f.1 ≠ g.1 →
  done body (done body s f) g = done body (done body s g) f

def Ignores (numbers : List UInt32) : Prop := ∀ n v s, n ∉ numbers → body n v s = .ok s

/-- The fields are read, whatever was read before. -/
def Readable (fields : List (UInt32 × Field)) : Prop :=
  ∀ f ∈ fields, ∀ s, ∃ s', body f.1 f.2 s = .ok s'

variable {body}

theorem done_of_ok {s s' : σ} {f : UInt32 × Field} (h : body f.1 f.2 s = .ok s') :
    done body s f = s' := by
  rw [done, h]

theorem foldlM_done {fields : List (UInt32 × Field)} (h : Readable body fields) (s : σ) :
    fields.foldlM (fun s f => body f.1 f.2 s) s = .ok (fields.foldl (done body) s) := by
  induction fields generalizing s with
  | nil => rfl
  | cons f fields ih =>
    obtain ⟨s', hs⟩ := h f List.mem_cons_self s
    rw [List.foldlM_cons, hs, List.foldl_cons, done_of_ok hs]
    exact ih (fun g hg => h g (List.mem_cons_of_mem _ hg)) s'

theorem eachField_sent {numbers : List UInt32} {fields : List (UInt32 × Field)} {r : Reader}
    (hbody : Independent body) (hignores : Ignores body numbers) (h : Sent numbers fields r.rest)
    (hsize : r.rest.length < 2 ^ 64) (hread : Readable body fields) (s : σ) :
    eachField body r s = .ok (fields.foldl (done body) s) := by
  obtain ⟨sent, hsame, hnumbers, hbytes⟩ := h
  have hsent : Readable body sent := by
    intro f hf s
    by_cases hnumber : f.1 ∈ numbers
    · exact hread f (hsame.symm.mem hf hnumber) s
    · exact ⟨s, hignores _ _ _ hnumber⟩
  have hskip : ∀ s f, f.1 ∉ numbers → done body s f = s :=
    fun s f hf => done_of_ok (hignores _ _ _ hf)
  rw [eachField_message hnumbers hbytes hsize, foldlM_done hsent]
  rw [Traces.foldl_rearranged hbody hskip hsame]

theorem eachField_nested {numbers : List UInt32} {fields : List (UInt32 × Field)} {bytes : Bytes}
    (hbody : Independent body) (hignores : Ignores body numbers) (h : Sent numbers fields bytes)
    (hsize : bytes.length < 2 ^ 64) (hread : Readable body fields) (depth : ℕ) (s : σ) :
    eachField body (.nested bytes depth) s = .ok (fields.foldl (done body) s) :=
  eachField_sent (r := .nested bytes depth) hbody hignores h hsize hread s

/-- What a part of a message has room for. -/
theorem Sent.payload_le {numbers : List UInt32} {fields : List (UInt32 × Field)} {bytes : Bytes}
    (h : Sent numbers fields bytes) {f : UInt32 × Field} (hf : f ∈ fields)
    (hnumber : f.1 ∈ numbers) : f.2.payload.length ≤ bytes.length := by
  obtain ⟨sent, hsame, -, rfl⟩ := h
  exact payload_le_message (hsame.mem hf hnumber)

end

/-! ## Values -/

/-- What becomes of values in the protobuf encoding. -/
def protoRendering : Rendering := ⟨Store.simple, false⟩

theorem message_nested {r : Reader} (h : r.depth < maxDepth) (b : Bytes) :
    (Field.bytes b).message r = .ok (.nested b (r.depth + 1)) := by
  rw [Field.message, if_neg (by omega)]

theorem string_textField (number : UInt32) (s : Text) : (textField number s).2.string = .ok s := by
  simp only [textField, Field.string, Utf8.strict_encode]

theorem foldlM_one {σ : Type} {body : UInt32 → Field → σ → Except ProtoError σ}
    (f : UInt32 × Field) (s : σ) : [f].foldlM (fun s f => body f.1 f.2 s) s = body f.1 f.2 s := by
  rw [List.foldlM_cons]
  cases body f.1 f.2 s <;> rfl

theorem numbered_items (items : List AnyValue) : Numbered (itemFields items) := by
  induction items with
  | nil =>
    rw [itemFields]
    exact .nil
  | cons v items ih =>
    rw [itemFields]
    exact .cons (by decide) ih

theorem numbered_pairs (pairs : List (Text × AnyValue)) : Numbered (pairFields pairs) := by
  induction pairs with
  | nil =>
    rw [pairFields]
    exact .nil
  | cons pair pairs ih =>
    obtain ⟨key, v⟩ := pair
    rw [pairFields]
    exact .cons (by decide) ih

theorem numbered_fields (v : AnyValue) : Numbered v.fields := by
  cases v with
  | empty => exact .nil
  | str s => exact .cons (by decide) .nil
  | bool b => exact .cons (by decide) .nil
  | int n => exact .cons (by decide) .nil
  | double bits => exact .cons (by decide) .nil
  | array items => exact .cons (by decide) .nil
  | kvlist pairs => exact .cons (by decide) .nil
  | bytes b => exact .cons (by decide) .nil

section

variable (fl : Floats) (rd : Rendering)

def AnyValue.toValue : AnyValue → Value
  | .empty => .empty
  | .str s => .str s
  | .bool b => .bool b
  | .int n => .i64 n.toInt
  | .double bits => .f64 bits
  | v => .structured (v.text fl rd)

theorem render_toValue (v : AnyValue) : (v.toValue fl rd).render fl = v.text fl rd := by
  cases v <;> simp [AnyValue.toValue, Value.render, AnyValue.text]

theorem intoAttr_toValue (v : AnyValue) : (v.toValue fl rd).intoAttr = v.attr fl rd := by
  cases v <;> simp [AnyValue.toValue, Value.intoAttr, AnyValue.attr, AnyValue.text]

theorem toText_attr (v : AnyValue) : (v.attr fl rd).toText fl.text = v.text fl rd := by
  cases v <;> simp [AnyValue.attr, AttrValue.toText, AnyValue.text]

variable {fl rd} {inner : Reader → Except ProtoError Value}

/-- A key and a value, of which the value is read. -/
theorem keyValue_message {r : Reader} {pair : Text × AnyValue} {b : Bytes}
    (hb : b = message [textField 1 pair.1, (2, .bytes (message pair.2.fields))])
    (hrest : r.rest = b) (hsize : b.length < 2 ^ 64) (hdepth : r.depth < maxDepth)
    (hinner : inner (.nested (message pair.2.fields) (r.depth + 1)) = .ok (pair.2.toValue fl rd)) :
    keyValue inner r = .ok (attrOf fl rd pair) := by
  have hnumbered : Numbered [textField 1 pair.1, (2, .bytes (message pair.2.fields))] :=
    .cons (by decide) (.cons (by decide) .nil)
  have hkey : ∀ s, keyValueField inner r 1 (textField 1 pair.1).2 s = .ok (pair.1, s.2) := by
    intro s
    show (do
      let key ← (textField 1 pair.1).2.string
      return (key, s.2) : Except ProtoError (Text × Value)) = _
    rw [string_textField]
    rfl
  have hvalue : ∀ s, keyValueField inner r 2 (.bytes (message pair.2.fields)) s
      = .ok (s.1, pair.2.toValue fl rd) := by
    intro s
    show (do
      let m ← (Field.bytes (message pair.2.fields)).message r
      let value ← inner m
      return (s.1, value) : Except ProtoError (Text × Value)) = _
    rw [message_nested hdepth]
    show (do
      let value ← inner (.nested (message pair.2.fields) (r.depth + 1))
      return (s.1, value) : Except ProtoError (Text × Value)) = _
    rw [hinner]
    rfl
  rw [keyValue, eachField_message hnumbered (hrest.trans hb) (hrest ▸ hsize), List.foldlM_cons]
  rw [show (textField 1 pair.1).1 = 1 from rfl, hkey]
  show (do
    let x ← [(2, Field.bytes (message pair.2.fields))].foldlM
      (fun s f => keyValueField inner r f.1 f.2 s) (pair.1, Value.empty)
    return if x.1 = [] then none else some ⟨x.1, x.2.intoAttr⟩ :
      Except ProtoError (Option Attr)) = _
  rw [foldlM_one, hvalue, attrOf, ← intoAttr_toValue]
  rfl

/-- One message in a field of the reader. -/
theorem message_step {σ : Type} {r : Reader} (hdepth : r.depth < maxDepth) (b : Bytes)
    (f : Reader → Except ProtoError σ) :
    ((Field.bytes b).message r >>= f) = f (.nested b (r.depth + 1)) := by
  rw [message_nested hdepth]
  rfl

variable (fl)

mutual

/-- A value that is not too deep is read as what it means. -/
theorem anyValueIn_fields (v : AnyValue) {levels : ℕ} {r : Reader}
    (hrest : r.rest = message v.fields) (hsize : r.rest.length < 2 ^ 64)
    (hdepth : r.depth + v.depth ≤ maxDepth) (hlevels : maxDepth < levels + r.depth) :
    anyValueIn fl levels r = .ok (v.toValue fl protoRendering) := by
  obtain ⟨levels, rfl⟩ : ∃ n, levels = n + 1 := Nat.exists_eq_add_one_of_ne_zero (by omega)
  rw [anyValueIn, eachField_message (numbered_fields v) hrest hsize]
  match v with
  | .empty => rfl
  | .str s =>
    rw [AnyValue.fields, foldlM_one]
    show ((textField 1 s).2.string >>= fun s => pure (Value.str s)) = _
    rw [string_textField]
    rfl
  | .bool true => rfl
  | .bool false => rfl
  | .int n =>
    rw [AnyValue.fields, foldlM_one]
    show Except.ok (Value.i64 n.toUInt64.toInt64.toInt) = _
    rw [Int64.toInt64_toUInt64]
    rfl
  | .double bits => rfl
  | .bytes b => rfl
  | .array items =>
    rw [AnyValue.fields] at hrest
    rw [AnyValue.depth] at hdepth
    have hpayload := payload_le_message
      (List.mem_singleton_self ((5 : UInt32), Field.bytes (message (itemFields items))))
    have hitems := items_foldlM items (hpayload.trans_lt (hrest ▸ hsize))
      (show (Reader.nested (message (itemFields items)) (r.depth + 1)).depth + itemsDepth items
        ≤ maxDepth by simp only [Reader.nested]; omega)
      (show maxDepth < levels + (r.depth + 1) + 1 by omega) []
    rw [AnyValue.fields, foldlM_one]
    show ((Field.bytes (message (itemFields items))).message r >>= fun m =>
      arrayValue fl (anyValueIn fl levels) m >>= fun s => pure (Value.structured s)) = _
    rw [message_step (by omega), arrayValue, eachField_message (numbered_items items) rfl
      (hpayload.trans_lt (hrest ▸ hsize)), hitems]
    show _ = Except.ok (Value.structured (AnyValue.text fl protoRendering (.array items)))
    rw [AnyValue.text]
    rfl
  | .kvlist pairs =>
    rw [AnyValue.fields] at hrest
    rw [AnyValue.depth] at hdepth
    have hpayload := payload_le_message
      (List.mem_singleton_self ((6 : UInt32), Field.bytes (message (pairFields pairs))))
    have hpairs := pairs_foldlM pairs (hpayload.trans_lt (hrest ▸ hsize))
      (show (Reader.nested (message (pairFields pairs)) (r.depth + 1)).depth + pairsDepth pairs
        ≤ maxDepth by simp only [Reader.nested]; omega)
      (show maxDepth < levels + (r.depth + 1) + 1 by omega) []
    rw [AnyValue.fields, foldlM_one]
    show ((Field.bytes (message (pairFields pairs))).message r >>= fun m =>
      kvlistValue fl (anyValueIn fl levels) m >>= fun s => pure (Value.structured s)) = _
    rw [message_step (by omega), kvlistValue, eachField_message (numbered_pairs pairs) rfl
      (hpayload.trans_lt (hrest ▸ hsize)), hpairs]
    show _ = Except.ok (Value.structured (AnyValue.text fl protoRendering (.kvlist pairs)))
    rw [AnyValue.text]
    rfl

theorem items_foldlM (items : List AnyValue) {levels : ℕ} {r : Reader}
    (hsize : (message (itemFields items)).length < 2 ^ 64)
    (hdepth : r.depth + itemsDepth items ≤ maxDepth) (hlevels : maxDepth < levels + r.depth + 1)
    (parts : List Text) :
    (itemFields items).foldlM (fun s f => arrayField fl (anyValueIn fl levels) r f.1 f.2 s) parts
      = .ok (parts ++ itemTexts fl protoRendering items) := by
  match items with
  | [] =>
    rw [itemFields, itemTexts, List.append_nil]
    rfl
  | v :: items =>
    rw [itemFields, message_cons, List.length_append] at hsize
    rw [itemsDepth] at hdepth
    have hpayload : (message v.fields).length ≤ _ :=
      payload_le ((1 : UInt32), Field.bytes (message v.fields))
    have hvalue : anyValueIn fl levels (.nested (message v.fields) (r.depth + 1))
        = .ok (v.toValue fl protoRendering) := by
      refine anyValueIn_fields v rfl ?_ ?_ ?_
      · show (message v.fields).length < 2 ^ 64
        omega
      · show r.depth + 1 + v.depth ≤ maxDepth
        omega
      · show maxDepth < levels + (r.depth + 1)
        omega
    have hfirst : arrayField fl (anyValueIn fl levels) r 1 (.bytes (message v.fields)) parts
        = .ok (parts ++ [v.text fl protoRendering]) := by
      rw [arrayField, if_pos rfl, message_step (by omega), hvalue, ← render_toValue]
      rfl
    rw [itemFields, List.foldlM_cons, hfirst, itemTexts]
    show List.foldlM _ (parts ++ [v.text fl protoRendering]) _ = _
    rw [items_foldlM items (by omega) (by omega) hlevels, List.append_assoc]
    rfl

theorem pairs_foldlM (pairs : List (Text × AnyValue)) {levels : ℕ} {r : Reader}
    (hsize : (message (pairFields pairs)).length < 2 ^ 64)
    (hdepth : r.depth + pairsDepth pairs ≤ maxDepth) (hlevels : maxDepth < levels + r.depth + 1)
    (parts : List Text) :
    (pairFields pairs).foldlM (fun s f => kvlistField fl (anyValueIn fl levels) r f.1 f.2 s) parts
      = .ok (parts ++ pairTexts fl protoRendering pairs) := by
  match pairs with
  | [] =>
    rw [pairFields, pairTexts, List.append_nil]
    rfl
  | (key, v) :: pairs =>
    rw [pairFields, message_cons, List.length_append] at hsize
    rw [pairsDepth] at hdepth
    have hpayload : (message [textField 1 key, (2, .bytes (message v.fields))]).length ≤ _ :=
      payload_le ((1 : UInt32), Field.bytes (message [textField 1 key,
        (2, .bytes (message v.fields))]))
    have hinside : (message v.fields).length ≤ _ :=
      payload_le_message (List.mem_cons_of_mem (textField 1 key)
        (List.mem_singleton_self ((2 : UInt32), Field.bytes (message v.fields))))
    have hvalue : anyValueIn fl levels (.nested (message v.fields) (r.depth + 1 + 1))
        = .ok (v.toValue fl protoRendering) := by
      refine anyValueIn_fields v rfl ?_ ?_ ?_
      · show (message v.fields).length < 2 ^ 64
        omega
      · show r.depth + 1 + 1 + v.depth ≤ maxDepth
        omega
      · show maxDepth < levels + (r.depth + 1 + 1)
        omega
    have hpair : keyValue (anyValueIn fl levels)
        (.nested (message [textField 1 key, (2, .bytes (message v.fields))]) (r.depth + 1))
        = .ok (attrOf fl protoRendering (key, v)) :=
      keyValue_message rfl rfl (hpayload.trans_lt (by omega)) (show r.depth + 1 < maxDepth by omega)
        hvalue
    have hfirst : kvlistField fl (anyValueIn fl levels) r 1
        (.bytes (message [textField 1 key, (2, .bytes (message v.fields))])) parts
        = .ok (parts ++ ((attrOf fl protoRendering (key, v)).map (pairText fl)).toList) := by
      rw [kvlistField, if_pos rfl, message_step (by omega), hpair]
      rfl
    rw [pairFields, List.foldlM_cons, hfirst]
    show List.foldlM _ (parts ++ _) _ = _
    rw [pairs_foldlM pairs (by omega) (by omega) hlevels, List.append_assoc, pairTexts, attrOf]
    by_cases hkey : key = []
    · rw [if_pos hkey, if_pos ⟨hkey, rfl⟩]
      rfl
    · rw [if_neg hkey, if_neg fun h => hkey h.1, Option.map_some, pairText, toText_attr]
      rfl

end

theorem anyValue_fields {v : AnyValue} {r : Reader} (hrest : r.rest = message v.fields)
    (hsize : r.rest.length < 2 ^ 64) (hdepth : r.depth + v.depth ≤ maxDepth) :
    anyValue fl r = .ok (v.toValue fl protoRendering) :=
  anyValueIn_fields fl v hrest hsize hdepth (by omega)

/-! ## Fields that can be left out -/

section

variable {σ : Type} {body : UInt32 → Field → σ → Except ProtoError σ}
  {explicit : UInt32 → Bool} {unset : Bool} {f : UInt32 × Field}

theorem mem_optField {g : UInt32 × Field} (h : g ∈ optField explicit unset f) : g = f := by
  rw [optField] at h
  split at h
  · cases h
  · exact List.mem_singleton.mp h

theorem unset_or_mem : unset = true ∨ f ∈ optField explicit unset f := by
  rw [optField]
  cases unset with
  | true => exact .inl rfl
  | false => exact .inr (List.mem_singleton_self f)

/-- A field that is left out comes to what it would. -/
theorem foldl_opt_of {fields : List (UInt32 × Field)} {s s' : σ}
    (h : f ∈ optField explicit unset f → body f.1 f.2 s = .ok s')
    (hunset : unset = true → s' = s) :
    (optField explicit unset f ++ fields).foldl (done body) s = fields.foldl (done body) s' := by
  rw [optField] at h ⊢
  split
  · next hleft =>
    rw [Bool.and_eq_true] at hleft
    rw [hunset hleft.1, List.nil_append]
  · next hsent =>
    rw [if_neg hsent] at h
    rw [List.singleton_append, List.foldl_cons, done_of_ok (h (List.mem_singleton_self f))]

theorem foldl_opt {fields : List (UInt32 × Field)} {s s' : σ} (h : body f.1 f.2 s = .ok s')
    (hunset : unset = true → s' = s) :
    (optField explicit unset f ++ fields).foldl (done body) s = fields.foldl (done body) s' :=
  foldl_opt_of (fun _ => h) hunset

theorem foldl_opt_last {s s' : σ} (h : body f.1 f.2 s = .ok s') (hunset : unset = true → s' = s) :
    (optField explicit unset f).foldl (done body) s = s' := by
  have hnil := @foldl_opt σ body explicit unset f [] s s' h hunset
  rwa [List.append_nil] at hnil

/-- The number of a field, among the numbers that are read. -/
theorem not_read {numbers : List UInt32} {number : UInt32} (h : number ∉ numbers) {k : UInt32}
    (hk : number.toNat = k.toNat) : k ∉ numbers :=
  UInt32.toNat_inj.mp hk ▸ h

end

/-! ## Records -/

/-- A change of one of the parts of a record. -/
inductive Gathered.Touches : ℕ → (Gathered → Gathered) → Prop
  | time (t : UInt64) : Touches 1 fun g => { g with time := t }
  | severityNumber (n : UInt64) : Touches 2 fun g => { g with severityNumber := n }
  | severityText (s : Text) : Touches 3 fun g =>
    { g with severityText := orText s g.severityText }
  | body (s : Text) : Touches 5 fun g => { g with body := s }
  | attributes (attrs : List Attr) : Touches 6 fun g =>
    { g with attributes := g.attributes ++ attrs }
  | dropped (n : UInt64) : Touches 7 fun g => { g with dropped := g.dropped + n }
  | traceId (id : Option (ByteArr 16)) : Touches 9 fun g => { g with traceId := id }
  | spanId (id : Option (ByteArr 8)) : Touches 10 fun g => { g with spanId := id }
  | observed (t : UInt64) : Touches 11 fun g => { g with observed := t }
  | eventName (s : Text) : Touches 12 fun g => { g with eventName := orText s g.eventName }
  | nothing (n : ℕ) : Touches n id

theorem Gathered.Touches.comm {m n : ℕ} {t u : Gathered → Gathered} (ht : Touches m t)
    (hu : Touches n u) (hne : m ≠ n) (g : Gathered) : u (t g) = t (u g) := by
  cases ht <;> cases hu <;> first | rfl | exact absurd rfl hne

/-- What a field of a record does does not depend on the rest of the record. -/
theorem touches_recordField (r : Reader) (number : UInt32) (v : Field) :
    ∃ t, Gathered.Touches number.toNat t ∧
      ∀ g, done (recordField fl r) g (number, v) = t g := by
  unfold done recordField
  simp only
  generalize number.toNat = k
  match k with
  | 0 => exact ⟨id, .nothing _, fun g => rfl⟩
  | 1 => exact ⟨_, .time v.asU64, fun g => rfl⟩
  | 2 => exact ⟨_, .severityNumber v.asU64, fun g => rfl⟩
  | 3 =>
    cases v.string with
    | error e => exact ⟨id, .nothing _, fun g => rfl⟩
    | ok s => exact ⟨_, .severityText s, fun g => rfl⟩
  | 4 => exact ⟨id, .nothing _, fun g => rfl⟩
  | 5 =>
    cases v.message r with
    | error e => exact ⟨id, .nothing _, fun g => rfl⟩
    | ok m =>
      cases hvalue : anyValue fl m with
      | error e =>
        refine ⟨id, .nothing _, fun g => ?_⟩
        simp only [bind, Except.bind, hvalue]
        rfl
      | ok value =>
        refine ⟨_, .body (value.render fl), fun g => ?_⟩
        simp only [bind, Except.bind, hvalue]
        rfl
  | 6 =>
    cases v.message r with
    | error e => exact ⟨id, .nothing _, fun g => rfl⟩
    | ok m =>
      cases hattr : keyValue (anyValue fl) m with
      | error e =>
        refine ⟨id, .nothing _, fun g => ?_⟩
        simp only [bind, Except.bind, hattr]
        rfl
      | ok attr =>
        refine ⟨_, .attributes attr.toList, fun g => ?_⟩
        simp only [bind, Except.bind, hattr]
        rfl
  | 7 => exact ⟨_, .dropped v.asU64, fun g => rfl⟩
  | 8 => exact ⟨id, .nothing _, fun g => rfl⟩
  | 9 => exact ⟨_, .traceId (fixedId 16 v.payload), fun g => rfl⟩
  | 10 => exact ⟨_, .spanId (fixedId 8 v.payload), fun g => rfl⟩
  | 11 => exact ⟨_, .observed v.asU64, fun g => rfl⟩
  | 12 =>
    cases v.string with
    | error e => exact ⟨id, .nothing _, fun g => rfl⟩
    | ok s => exact ⟨_, .eventName s, fun g => rfl⟩
  | n + 13 => exact ⟨id, .nothing _, fun g => rfl⟩

theorem independent_recordField (r : Reader) : Independent (recordField fl r) := by
  intro s f g hne
  obtain ⟨t, ht, hf⟩ := touches_recordField fl r f.1 f.2
  obtain ⟨u, hu, hg⟩ := touches_recordField fl r g.1 g.2
  rw [hf, hg, hf, hg]
  exact ht.comm hu (fun h => hne (UInt32.toNat_inj.mp h)) s

theorem ignores_recordField (r : Reader) : Ignores (recordField fl r) recordNumbers := by
  intro number v s h
  have hnot : ∀ k ∈ recordNumbers, number.toNat ≠ k.toNat :=
    fun k hk heq => not_read h heq hk
  rw [recordField]
  split
  · exact absurd ‹_› (hnot 1 (by decide))
  · exact absurd ‹_› (hnot 2 (by decide))
  · exact absurd ‹_› (hnot 3 (by decide))
  · exact absurd ‹_› (hnot 5 (by decide))
  · exact absurd ‹_› (hnot 6 (by decide))
  · exact absurd ‹_› (hnot 7 (by decide))
  · exact absurd ‹_› (hnot 9 (by decide))
  · exact absurd ‹_› (hnot 10 (by decide))
  · exact absurd ‹_› (hnot 11 (by decide))
  · exact absurd ‹_› (hnot 12 (by decide))
  · rfl

variable {fl}

/-- An attribute in a field of the reader. -/
theorem pairField_read {σ : Type} {r : Reader} {number : UInt32} {pair : Text × AnyValue}
    (hdepth : r.depth + 2 + pair.2.depth ≤ maxDepth)
    (hsize : (pairField number pair).2.payload.length < 2 ^ 64)
    (f : Option Attr → Except ProtoError σ) :
    ((pairField number pair).2.message r >>= fun m => keyValue (anyValue fl) m >>= f)
      = f (attrOf fl protoRendering pair) := by
  have hinside : (message pair.2.fields).length ≤ _ :=
    payload_le_message (List.mem_cons_of_mem (textField 1 pair.1)
      (List.mem_singleton_self ((2 : UInt32), Field.bytes (message pair.2.fields))))
  have hvalue : anyValue fl (.nested (message pair.2.fields) (r.depth + 1 + 1))
      = .ok (pair.2.toValue fl protoRendering) :=
    anyValue_fields fl rfl (hinside.trans_lt hsize)
      (show r.depth + 1 + 1 + pair.2.depth ≤ maxDepth by omega)
  rw [pairField, message_step (by omega), keyValue_message rfl rfl hsize
    (show r.depth + 1 < maxDepth by omega) hvalue]
  rfl

theorem fields_known {m : LogMessage} {explicit : UInt32 → Bool} {f : UInt32 × Field}
    (h : f ∈ m.fields explicit) : f.1 ∈ recordNumbers := by
  simp only [LogMessage.fields, List.mem_append] at h
  rcases h with h | h | h | h | h | h | h | h | h | h
  · exact mem_optField h ▸ (by decide : (1 : UInt32) ∈ recordNumbers)
  · exact mem_optField h ▸ (by decide : (2 : UInt32) ∈ recordNumbers)
  · exact mem_optField h ▸ (by decide : (3 : UInt32) ∈ recordNumbers)
  · exact mem_optField h ▸ (by decide : (5 : UInt32) ∈ recordNumbers)
  · obtain ⟨pair, -, rfl⟩ := List.mem_map.mp h
    exact (by decide : (6 : UInt32) ∈ recordNumbers)
  · exact mem_optField h ▸ (by decide : (7 : UInt32) ∈ recordNumbers)
  · exact mem_optField h ▸ (by decide : (9 : UInt32) ∈ recordNumbers)
  · exact mem_optField h ▸ (by decide : (10 : UInt32) ∈ recordNumbers)
  · exact mem_optField h ▸ (by decide : (11 : UInt32) ∈ recordNumbers)
  · exact mem_optField h ▸ (by decide : (12 : UInt32) ∈ recordNumbers)

section

variable {r : Reader} (g : Gathered)

theorem recordField_text (number : UInt32) (s : Text) (f : Text → Gathered) :
    ((textField number s).2.string >>= fun s => (pure (f s) : Except ProtoError Gathered))
      = .ok (f s) := by
  rw [string_textField]
  rfl

theorem recordField_severityText (s : Text) :
    recordField fl r 3 (textField 3 s).2 g
      = .ok { g with severityText := orText s g.severityText } :=
  recordField_text 3 s fun s => { g with severityText := orText s g.severityText }

theorem recordField_eventName (s : Text) :
    recordField fl r 12 (textField 12 s).2 g
      = .ok { g with eventName := orText s g.eventName } :=
  recordField_text 12 s fun s => { g with eventName := orText s g.eventName }

theorem recordField_body {v : AnyValue} (hdepth : r.depth + 1 + v.depth ≤ maxDepth)
    (hsize : (message v.fields).length < 2 ^ 64) :
    recordField fl r 5 (.bytes (message v.fields)) g
      = .ok { g with body := v.text fl protoRendering } := by
  have hvalue : anyValue fl (.nested (message v.fields) (r.depth + 1))
      = .ok (v.toValue fl protoRendering) := anyValue_fields fl rfl hsize hdepth
  show ((Field.bytes (message v.fields)).message r >>= fun m => anyValue fl m >>= fun value =>
    pure { g with body := value.render fl }) = _
  rw [message_step (by omega), hvalue, ← render_toValue]
  rfl

theorem recordField_attribute {pair : Text × AnyValue}
    (hdepth : r.depth + 2 + pair.2.depth ≤ maxDepth)
    (hsize : (pairField 6 pair).2.payload.length < 2 ^ 64) :
    recordField fl r 6 (pairField 6 pair).2 g
      = .ok { g with
        attributes := g.attributes ++ (attrOf fl protoRendering pair).toList } := by
  show ((pairField 6 pair).2.message r >>= fun m => keyValue (anyValue fl) m >>= fun attr =>
    pure { g with attributes := g.attributes ++ attr.toList }) = _
  rw [pairField_read hdepth hsize]
  rfl

theorem foldl_attributes {pairs : List (Text × AnyValue)}
    (h : ∀ pair ∈ pairs, r.depth + 2 + pair.2.depth ≤ maxDepth ∧
      (pairField 6 pair).2.payload.length < 2 ^ 64) :
    (pairs.map (pairField 6)).foldl (done (recordField fl r)) g
      = { g with attributes := g.attributes ++ attrsOf fl protoRendering pairs } := by
  induction pairs generalizing g with
  | nil =>
    show g = { g with attributes := g.attributes ++ [] }
    rw [List.append_nil]
  | cons pair pairs ih =>
    obtain ⟨hdepth, hsize⟩ := h pair List.mem_cons_self
    rw [List.map_cons, List.foldl_cons, done_of_ok (recordField_attribute g hdepth hsize),
      ih _ fun p hp => h p (List.mem_cons_of_mem _ hp)]
    have hattrs : attrsOf fl protoRendering (pair :: pairs)
        = (attrOf fl protoRendering pair).toList ++ attrsOf fl protoRendering pairs := by
      rw [attrsOf, List.filterMap_cons]
      cases attrOf fl protoRendering pair <;> rfl
    rw [hattrs, List.append_assoc]

end

/-- A record that is sent is read as what it means. -/
theorem logRecord_sent {m : LogMessage} {r : Reader} (h : m.SentAs r.rest)
    (hsize : r.rest.length < 2 ^ 64) (hdepth : r.depth = 3) (hm : m.Shallow) (id : Uuid)
    (now : UInt64) (dropped : ℕ) : logRecord fl r id now dropped
      = .ok (m.record fl protoRendering id now, (UInt64.ofNat dropped + m.dropped).toNat) := by
  obtain ⟨explicit, hsent⟩ := h
  have hpart : ∀ f ∈ m.fields explicit, f.2.payload.length < 2 ^ 64 :=
    fun f hf => (hsent.payload_le hf (fields_known hf)).trans_lt hsize
  have hmem := hpart
  simp only [LogMessage.fields, List.mem_append] at hmem
  have hbody : ∀ g, recordField fl r 5 (.bytes (message m.body.fields)) g
      = .ok { g with body := m.body.text fl protoRendering } := by
    intro g
    refine recordField_body g (by have := hm.1; omega) ?_
    have hin : m.body.isEmpty = true ∨ (5, Field.bytes (message m.body.fields))
        ∈ optField explicit m.body.isEmpty (5, .bytes (message m.body.fields)) := unset_or_mem
    rcases hin with hunset | hin
    · cases hv : m.body <;> rw [hv] at hunset <;>
        first | exact absurd hunset Bool.false_ne_true | skip
      exact Nat.two_pow_pos 64
    · exact hmem _ (.inr (.inr (.inr (.inl hin))))
  have hattributes : ∀ pair ∈ m.attributes, r.depth + 2 + pair.2.depth ≤ maxDepth ∧
      (pairField 6 pair).2.payload.length < 2 ^ 64 := by
    intro pair hpair
    have hlevel := hm.2 pair hpair
    refine ⟨by omega, hmem _ (.inr (.inr (.inr (.inr (.inl ?_)))))⟩
    exact List.mem_map_of_mem hpair
  have hread : Readable (recordField fl r) (m.fields explicit) := by
    intro f hf g
    simp only [LogMessage.fields, List.mem_append] at hf
    rcases hf with hf | hf | hf | hf | hf | hf | hf | hf | hf | hf
    · exact mem_optField hf ▸ ⟨_, rfl⟩
    · exact mem_optField hf ▸ ⟨_, rfl⟩
    · exact mem_optField hf ▸ ⟨_, recordField_severityText g m.severityText⟩
    · exact mem_optField hf ▸ ⟨_, hbody g⟩
    · obtain ⟨pair, hpair, rfl⟩ := List.mem_map.mp hf
      obtain ⟨hlevel, hlength⟩ := hattributes pair hpair
      exact ⟨_, recordField_attribute g hlevel hlength⟩
    · exact mem_optField hf ▸ ⟨_, rfl⟩
    · exact mem_optField hf ▸ ⟨_, rfl⟩
    · exact mem_optField hf ▸ ⟨_, rfl⟩
    · exact mem_optField hf ▸ ⟨_, rfl⟩
    · exact mem_optField hf ▸ ⟨_, recordField_eventName g m.eventName⟩
  -- a state is written out with its parts, which stay small then
  have htime : ∀ {t o n s b a x y e d},
      recordField fl r 1 (.fixed64 m.time) ⟨t, o, n, s, b, a, x, y, e, d⟩
        = .ok ⟨m.time, o, n, s, b, a, x, y, e, d⟩ := rfl
  have hnumber : ∀ {t o n s b a x y e d},
      recordField fl r 2 (.varint m.severityNumber) ⟨t, o, n, s, b, a, x, y, e, d⟩
        = .ok ⟨t, o, m.severityNumber, s, b, a, x, y, e, d⟩ := rfl
  have htext : ∀ {t o n s b a x y e d},
      recordField fl r 3 (textField 3 m.severityText).2 ⟨t, o, n, s, b, a, x, y, e, d⟩
        = .ok ⟨t, o, n, orText m.severityText s, b, a, x, y, e, d⟩ :=
    recordField_severityText _ _
  have hvalue : ∀ {t o n s b a x y e d},
      recordField fl r 5 (.bytes (message m.body.fields)) ⟨t, o, n, s, b, a, x, y, e, d⟩
        = .ok ⟨t, o, n, s, m.body.text fl protoRendering, a, x, y, e, d⟩ := hbody _
  have hattrs : ∀ {t o n s b x y e d},
      (m.attributes.map (pairField 6)).foldl (done (recordField fl r))
          ⟨t, o, n, s, b, [], x, y, e, d⟩
        = ⟨t, o, n, s, b, attrsOf fl protoRendering m.attributes, x, y, e, d⟩ :=
    foldl_attributes _ hattributes
  have hdropped : ∀ {t o n s b a x y e d},
      recordField fl r 7 (.varint m.dropped) ⟨t, o, n, s, b, a, x, y, e, d⟩
        = .ok ⟨t, o, n, s, b, a, x, y, e, d + m.dropped⟩ := rfl
  have htrace : ∀ {t o n s b a x y e d},
      recordField fl r 9 (.bytes m.traceId) ⟨t, o, n, s, b, a, x, y, e, d⟩
        = .ok ⟨t, o, n, s, b, a, fixedId 16 m.traceId, y, e, d⟩ := rfl
  have hspan : ∀ {t o n s b a x y e d},
      recordField fl r 10 (.bytes m.spanId) ⟨t, o, n, s, b, a, x, y, e, d⟩
        = .ok ⟨t, o, n, s, b, a, x, fixedId 8 m.spanId, e, d⟩ := rfl
  have hobserved : ∀ {t o n s b a x y e d},
      recordField fl r 11 (.fixed64 m.observed) ⟨t, o, n, s, b, a, x, y, e, d⟩
        = .ok ⟨t, m.observed, n, s, b, a, x, y, e, d⟩ := rfl
  have hevent : ∀ {t o n s b a x y e d},
      recordField fl r 12 (textField 12 m.eventName).2 ⟨t, o, n, s, b, a, x, y, e, d⟩
        = .ok ⟨t, o, n, s, b, a, x, y, orText m.eventName e, d⟩ := recordField_eventName _ _
  have hfold : (m.fields explicit).foldl (done (recordField fl r)) (.start dropped)
      = ⟨m.time, m.observed, m.severityNumber, orText m.severityText none,
        m.body.text fl protoRendering, attrsOf fl protoRendering m.attributes,
        fixedId 16 m.traceId, fixedId 8 m.spanId, orText m.eventName none,
        UInt64.ofNat dropped + m.dropped⟩ := by
    rw [LogMessage.fields, Gathered.start, foldl_opt htime, foldl_opt hnumber, foldl_opt htext,
      foldl_opt hvalue, List.foldl_append, hattrs, foldl_opt hdropped, foldl_opt htrace,
      foldl_opt hspan, foldl_opt hobserved, foldl_opt_last hevent]
    -- a field with the default value leaves its part as it was at the start
    · intro h
      rw [of_decide_eq_true h]
      rfl
    · intro h
      rw [of_decide_eq_true h]
    · intro h
      rw [of_decide_eq_true h]
      rfl
    · intro h
      rw [of_decide_eq_true h]
      rfl
    · intro h
      rw [of_decide_eq_true h, UInt64.add_zero]
    · intro h
      cases hv : m.body <;> rw [hv] at h <;> first | exact absurd h Bool.false_ne_true | rfl
    · intro h
      rw [of_decide_eq_true h]
      rfl
    · intro h
      rw [of_decide_eq_true h]
    · intro h
      rw [of_decide_eq_true h]
  rw [logRecord, eachField_sent (independent_recordField fl r) (ignores_recordField fl r) hsent
    hsize hread, hfold]
  rfl

/-! ## Scopes and resources -/

section

variable {σ α : Type} {body : UInt32 → Field → σ → Except ProtoError σ}

/-- Fields of one number alone keep their order. -/
theorem independent_of_one {number : UInt32} (h : Ignores body [number]) : Independent body := by
  have hskip : ∀ s (f : UInt32 × Field), f.1 ≠ number → done body s f = s :=
    fun s f hf => done_of_ok (h _ _ _ fun hmem => hf (List.mem_singleton.mp hmem))
  intro s f g hne
  by_cases hf : f.1 = number
  · have hg : g.1 ≠ number := fun hg => hne (hf.trans hg.symm)
    rw [hskip _ g hg, hskip _ g hg]
  · rw [hskip _ f hf, hskip _ f hf]

/-- A change of one of two parts. -/
inductive TouchesOne {α β : Type} : ℕ → (α × β → α × β) → Prop
  | first (t : α → α) : TouchesOne 1 fun s => (t s.1, s.2)
  | second (t : β → β) : TouchesOne 2 fun s => (s.1, t s.2)
  | nothing (n : ℕ) : TouchesOne n id

theorem TouchesOne.comm {α β : Type} {m n : ℕ} {t u : α × β → α × β} (ht : TouchesOne m t)
    (hu : TouchesOne n u) (hne : m ≠ n) (s : α × β) : u (t s) = t (u s) := by
  cases ht <;> cases hu <;> first | rfl | exact absurd rfl hne

theorem independent_of_touches {α β : Type}
    {body : UInt32 → Field → α × β → Except ProtoError (α × β)}
    (h : ∀ number v, ∃ t, TouchesOne number.toNat t ∧ ∀ s, done body s (number, v) = t s) :
    Independent body := by
  intro s f g hne
  obtain ⟨t, ht, hf⟩ := h f.1 f.2
  obtain ⟨u, hu, hg⟩ := h g.1 g.2
  rw [hf, hg, hf, hg]
  exact ht.comm hu (fun heq => hne (UInt32.toNat_inj.mp heq)) s

theorem Readable.append {fields fields' : List (UInt32 × Field)} (h : Readable body fields)
    (h' : Readable body fields') : Readable body (fields ++ fields') :=
  fun f hf => (List.mem_append.mp hf).elim (h f) (h' f)

theorem Readable.opt {explicit : UInt32 → Bool} {unset : Bool} {f : UInt32 × Field}
    (h : f ∈ optField explicit unset f → ∀ s, ∃ s', body f.1 f.2 s = .ok s') :
    Readable body (optField explicit unset f) := by
  intro g hg
  obtain rfl := mem_optField hg
  exact h hg

theorem Readable.parts {number : UInt32} {parts : List Bytes}
    (h : ∀ p ∈ parts, ∀ s, ∃ s', body number (.bytes p) s = .ok s') :
    Readable body (parts.map (partField number)) := by
  intro f hf
  obtain ⟨p, hp, rfl⟩ := List.mem_map.mp hf
  exact h p hp

variable {P : α → Bytes → Prop} {messages : List α} {parts : List Bytes}

theorem exists_of_part (h : List.Forall₂ P messages parts) {p : Bytes} (hp : p ∈ parts) :
    ∃ m ∈ messages, P m p := by
  induction h with
  | nil => cases hp
  | @cons m q messages parts hm h ih =>
    rcases List.mem_cons.mp hp with rfl | hp
    · exact ⟨m, List.mem_cons_self, hm⟩
    · obtain ⟨m', hm', hmp⟩ := ih hp
      exact ⟨m', List.mem_cons_of_mem _ hm', hmp⟩

/-- The parts of a message are taken one after the other. -/
theorem foldlM_parts {step : σ → Reader → Except ProtoError σ} {act : σ → α → σ} {depth : ℕ}
    (h : List.Forall₂ P messages parts)
    (hstep : ∀ m ∈ messages, ∀ p ∈ parts, P m p → ∀ s, step s (.nested p depth) = .ok (act s m))
    (s : σ) :
    (parts.map fun p => Reader.nested p depth).foldlM step s = .ok (messages.foldl act s) := by
  induction h generalizing s with
  | nil => rfl
  | cons hm h ih =>
    have hfirst := hstep _ List.mem_cons_self _ List.mem_cons_self hm s
    rw [List.map_cons, List.foldlM_cons, hfirst]
    exact ih (fun m hm' p hp =>
      hstep m (List.mem_cons_of_mem _ hm') p (List.mem_cons_of_mem _ hp)) _

theorem foldl_parts {number : UInt32} {act : σ → α → σ} (h : List.Forall₂ P messages parts)
    (hstep : ∀ m ∈ messages, ∀ p ∈ parts, P m p → ∀ s, body number (.bytes p) s = .ok (act s m))
    (s : σ) : (parts.map (partField number)).foldl (done body) s = messages.foldl act s := by
  induction h generalizing s with
  | nil => rfl
  | cons hm h ih =>
    have hfirst := hstep _ List.mem_cons_self _ List.mem_cons_self hm s
    rw [List.map_cons, List.foldl_cons, done_of_ok hfirst]
    exact ih (fun m hm' p hp =>
      hstep m (List.mem_cons_of_mem _ hm') p (List.mem_cons_of_mem _ hp)) _

/-- The parts that are read later. -/
theorem foldl_pending {τ : Type}
    {body : UInt32 → Field → τ × List Reader → Except ProtoError (τ × List Reader)} {depth : ℕ}
    (h : ∀ p s, body 2 (.bytes p) s = .ok (s.1, s.2 ++ [.nested p depth])) (parts : List Bytes)
    (s : τ × List Reader) : (parts.map (partField 2)).foldl (done body) s
      = (s.1, s.2 ++ parts.map fun p => .nested p depth) := by
  induction parts generalizing s with
  | nil =>
    show s = (s.1, s.2 ++ [])
    rw [List.append_nil]
  | cons p parts ih =>
    rw [List.map_cons, List.foldl_cons, done_of_ok (h p s), ih, List.append_assoc]
    rfl

end

theorem ignores_scopeNameField : Ignores scopeNameField [1] := by
  intro number v s h
  rw [scopeNameField, if_neg fun heq => h (List.mem_singleton.mpr heq)]
  rfl

theorem scopeNameField_text (s : Text) (name : Option Text) :
    scopeNameField 1 (textField 1 s).2 name = .ok (orText s name) := by
  rw [scopeNameField, if_pos rfl, string_textField]
  rfl

theorem independent_scopeField (r : Reader) : Independent (scopeField r) := by
  refine independent_of_touches fun number v => ?_
  unfold done scopeField
  simp only
  generalize number.toNat = k
  match k with
  | 0 => exact ⟨id, .nothing _, fun s => rfl⟩
  | 1 =>
    cases v.message r with
    | error e => exact ⟨id, .nothing _, fun s => rfl⟩
    | ok m =>
      refine ⟨_, .first fun name => ((eachField scopeNameField m name).toOption).getD name,
        fun s => ?_⟩
      simp only [bind, Except.bind]
      cases eachField scopeNameField m s.1 <;> rfl
  | 2 =>
    cases v.message r with
    | error e => exact ⟨id, .nothing _, fun s => rfl⟩
    | ok m => exact ⟨_, .second fun pending => pending ++ [m], fun s => rfl⟩
  | n + 3 => exact ⟨id, .nothing _, fun s => rfl⟩

theorem ignores_scopeField (r : Reader) : Ignores (scopeField r) [1, 2] := by
  intro number v s h
  have hnot : ∀ k ∈ ([1, 2] : List UInt32), number.toNat ≠ k.toNat :=
    fun k hk heq => not_read h heq hk
  rw [scopeField]
  split
  · exact absurd ‹_› (hnot 1 (by decide))
  · exact absurd ‹_› (hnot 2 (by decide))
  · rfl

/-- The name in the scope. -/
theorem scopeField_name {explicit : UInt32 → Bool} {name : Text} {scope : Bytes} {r : Reader}
    (h : Sent [1] (optField explicit (name = []) (textField 1 name)) scope)
    (hsize : scope.length < 2 ^ 64) (hdepth : r.depth < maxDepth) (s : Option Text × List Reader) :
    ∃ name', scopeField r 1 (.bytes scope) s = .ok (name', s.2) ∧
      (s.1 = none → name' = orText name none) := by
  have hread : eachField scopeNameField (.nested scope (r.depth + 1)) s.1
      = .ok ((optField explicit (name = []) (textField 1 name)).foldl (done scopeNameField) s.1) :=
    eachField_nested (independent_of_one ignores_scopeNameField) ignores_scopeNameField h hsize
      (.opt fun _ s => ⟨_, scopeNameField_text name s⟩) _ _
  refine ⟨(optField explicit (name = []) (textField 1 name)).foldl (done scopeNameField) s.1, ?_,
    fun hnone => ?_⟩
  · show ((Field.bytes scope).message r >>= fun m => eachField scopeNameField m s.1 >>= fun name =>
      pure (name, s.2)) = _
    rw [message_step hdepth, hread]
    rfl
  · rw [hnone]
    refine foldl_opt_last (scopeNameField_text name none) fun hunset => ?_
    rw [of_decide_eq_true hunset]
    rfl

/-- The records of a scope that is sent are read as what they mean. -/
theorem scopeLogs_sent {m : ScopeMessage} {r : Reader} (h : m.SentAs r.rest)
    (hsize : r.rest.length < 2 ^ 64) (hdepth : r.depth = 2) (hm : ∀ l ∈ m.records, l.Shallow)
    (ids : ℕ → Uuid) (now : UInt64) (attrs : List Attr) (out : Decoded) :
    scopeLogs fl r ids now attrs (serviceOf attrs) out
      = .ok (m.addTo fl protoRendering ids now attrs out) := by
  obtain ⟨explicit, scope, parts, hscope, hparts, hsent⟩ := h
  have hroom : r.depth < maxDepth := hdepth ▸ (by decide)
  have hpart : ∀ p ∈ parts, p.length < 2 ^ 64 := by
    intro p hp
    have hmem : partField 2 p ∈ optField explicit (m.name = []) (1, .bytes scope)
        ++ parts.map (partField 2) := List.mem_append_right _ (List.mem_map_of_mem hp)
    exact (hsent.payload_le hmem (by simp [partField])).trans_lt hsize
  have hnamed : (1, Field.bytes scope) ∈ optField explicit (m.name = []) (1, .bytes scope) →
      scope.length < 2 ^ 64 := fun hmem =>
    (hsent.payload_le (List.mem_append_left _ hmem) (by simp)).trans_lt hsize
  have hnext : ∀ p s,
      scopeField r 2 (.bytes p) s = .ok (s.1, s.2 ++ [.nested p (r.depth + 1)]) := by
    intro p s
    show ((Field.bytes p).message r >>= fun m => pure (s.1, s.2 ++ [m])) = _
    rw [message_step hroom]
    rfl
  have hread : Readable (scopeField r) (optField explicit (m.name = []) (1, .bytes scope)
      ++ parts.map (partField 2)) := by
    refine .append (.opt fun hmem s => ?_) (.parts fun p _ s => ⟨_, hnext p s⟩)
    obtain ⟨name, hname, -⟩ := scopeField_name hscope (hnamed hmem) hroom s
    exact ⟨_, hname⟩
  have hfold : (optField explicit (m.name = []) (1, .bytes scope)
      ++ parts.map (partField 2)).foldl (done (scopeField r)) (none, [])
      = (orText m.name none, parts.map fun p => .nested p (r.depth + 1)) := by
    have hname := @foldl_opt_of _ (scopeField r) explicit (decide (m.name = []))
      (1, Field.bytes scope) (parts.map (partField 2)) (none, []) (orText m.name none, []) ?_ ?_
    · rw [hname, foldl_pending hnext]
      rfl
    · intro hmem
      obtain ⟨name, hname, hnone⟩ := scopeField_name hscope (hnamed hmem) hroom (none, [])
      rw [hname, hnone rfl]
    · intro hunset
      rw [of_decide_eq_true hunset]
      rfl
  rw [scopeLogs, eachField_sent (independent_scopeField r) (ignores_scopeField r) hsent hsize hread,
    hfold]
  refine foldlM_parts hparts (fun l hl p hp hlp out => ?_) out
  have hrecord := @logRecord_sent fl l (.nested p (r.depth + 1)) hlp (hpart p hp)
    (congrArg (· + 1) hdepth) (hm l hl) (ids out.records.length) now out.droppedUpstream
  rw [addRecord, hrecord]
  rfl

/-- A change of one of the parts of a resource. -/
inductive Resource.Touches : ℕ → (Resource → Resource) → Prop
  | attr (attr : Option Attr) : Touches 1 fun s => attr.elim s s.add
  | dropped (n : UInt64) : Touches 2 fun s => { s with dropped := s.dropped + n }
  | nothing (n : ℕ) : Touches n id

theorem Resource.Touches.comm {m n : ℕ} {t u : Resource → Resource} (ht : Touches m t)
    (hu : Touches n u) (hne : m ≠ n) (s : Resource) : u (t s) = t (u s) := by
  cases ht with
  | attr attr =>
    cases hu with
    | attr attr' => exact absurd rfl hne
    | dropped n => cases attr <;> rfl
    | nothing n => rfl
  | dropped n =>
    cases hu with
    | attr attr => cases attr <;> rfl
    | dropped n' => exact absurd rfl hne
    | nothing n => rfl
  | nothing n => rfl

theorem touches_resourceField (fl : Floats) (r : Reader) (number : UInt32) (v : Field) :
    ∃ t, Resource.Touches number.toNat t ∧
      ∀ s, done (resourceField fl r) s (number, v) = t s := by
  unfold done resourceField
  simp only
  generalize number.toNat = k
  match k with
  | 0 => exact ⟨id, .nothing _, fun s => rfl⟩
  | 1 =>
    cases v.message r with
    | error e => exact ⟨id, .nothing _, fun s => rfl⟩
    | ok m =>
      cases hattr : keyValue (anyValue fl) m with
      | error e =>
        refine ⟨id, .nothing _, fun s => ?_⟩
        simp only [bind, Except.bind, hattr]
        rfl
      | ok attr =>
        refine ⟨_, .attr attr, fun s => ?_⟩
        simp only [bind, Except.bind, hattr]
        rfl
  | 2 => exact ⟨_, .dropped v.asU64, fun s => rfl⟩
  | n + 3 => exact ⟨id, .nothing _, fun s => rfl⟩

theorem independent_resourceField (r : Reader) : Independent (resourceField fl r) := by
  intro s f g hne
  obtain ⟨t, ht, hf⟩ := touches_resourceField fl r f.1 f.2
  obtain ⟨u, hu, hg⟩ := touches_resourceField fl r g.1 g.2
  rw [hf, hg, hf, hg]
  exact ht.comm hu (fun h => hne (UInt32.toNat_inj.mp h)) s

theorem ignores_resourceField (r : Reader) : Ignores (resourceField fl r) [1, 2] := by
  intro number v s h
  have hnot : ∀ k ∈ ([1, 2] : List UInt32), number.toNat ≠ k.toNat :=
    fun k hk heq => not_read h heq hk
  rw [resourceField]
  split
  · exact absurd ‹_› (hnot 1 (by decide))
  · exact absurd ‹_› (hnot 2 (by decide))
  · rfl

theorem independent_resourceLogsField (r : Reader) : Independent (resourceLogsField fl r) := by
  refine independent_of_touches fun number v => ?_
  unfold done resourceLogsField
  simp only
  generalize number.toNat = k
  match k with
  | 0 => exact ⟨id, .nothing _, fun s => rfl⟩
  | 1 =>
    cases v.message r with
    | error e => exact ⟨id, .nothing _, fun s => rfl⟩
    | ok m =>
      refine ⟨_, .first fun resource =>
        ((eachField (resourceField fl m) m resource).toOption).getD resource, fun s => ?_⟩
      simp only [bind, Except.bind]
      cases eachField (resourceField fl m) m s.1 <;> rfl
  | 2 =>
    cases v.message r with
    | error e => exact ⟨id, .nothing _, fun s => rfl⟩
    | ok m => exact ⟨_, .second fun pending => pending ++ [m], fun s => rfl⟩
  | n + 3 => exact ⟨id, .nothing _, fun s => rfl⟩

theorem ignores_resourceLogsField (r : Reader) : Ignores (resourceLogsField fl r) [1, 2] := by
  intro number v s h
  have hnot : ∀ k ∈ ([1, 2] : List UInt32), number.toNat ≠ k.toNat :=
    fun k hk heq => not_read h heq hk
  rw [resourceLogsField]
  split
  · exact absurd ‹_› (hnot 1 (by decide))
  · exact absurd ‹_› (hnot 2 (by decide))
  · rfl

theorem serviceOf_cons (attr : Attr) (attrs : List Attr) :
    serviceOf (attr :: attrs) = (serviceOf attrs).or (serviceName attr) := by
  rw [serviceOf, serviceOf, List.filterMap_cons]
  cases serviceName attr with
  | none => rw [Option.or_none]
  | some name =>
    simp only
    rw [List.getLast?_cons]
    cases (attrs.filterMap serviceName).getLast? <;> rfl

theorem resourceField_attribute {r : Reader} {pair : Text × AnyValue} (s : Resource)
    (hdepth : r.depth + 2 + pair.2.depth ≤ maxDepth)
    (hsize : (pairField 1 pair).2.payload.length < 2 ^ 64) :
    resourceField fl r 1 (pairField 1 pair).2 s
      = .ok ((attrOf fl protoRendering pair).elim s s.add) := by
  show ((pairField 1 pair).2.message r >>= fun m => keyValue (anyValue fl) m >>= fun attr =>
    pure (attr.elim s s.add)) = _
  rw [pairField_read hdepth hsize]
  rfl

theorem foldl_resource {r : Reader} {pairs : List (Text × AnyValue)}
    (h : ∀ pair ∈ pairs, r.depth + 2 + pair.2.depth ≤ maxDepth ∧
      (pairField 1 pair).2.payload.length < 2 ^ 64) (s : Resource) :
    (pairs.map (pairField 1)).foldl (done (resourceField fl r)) s
      = ⟨s.attributes ++ attrsOf fl protoRendering pairs,
        (serviceOf (attrsOf fl protoRendering pairs)).or s.service, s.dropped⟩ := by
  induction pairs generalizing s with
  | nil =>
    show s = ⟨s.attributes ++ [], s.service, s.dropped⟩
    rw [List.append_nil]
  | cons pair pairs ih =>
    obtain ⟨hdepth, hsize⟩ := h pair List.mem_cons_self
    rw [List.map_cons, List.foldl_cons, done_of_ok (resourceField_attribute s hdepth hsize),
      ih (fun p hp => h p (List.mem_cons_of_mem _ hp))]
    have hattrs : attrsOf fl protoRendering (pair :: pairs)
        = (attrOf fl protoRendering pair).toList ++ attrsOf fl protoRendering pairs := by
      rw [attrsOf, List.filterMap_cons]
      cases attrOf fl protoRendering pair <;> rfl
    rw [hattrs]
    cases attrOf fl protoRendering pair with
    | none => rfl
    | some attr =>
      rw [Option.toList_some, List.singleton_append, serviceOf_cons, Option.or_assoc]
      show (⟨s.attributes ++ [attr] ++ _, _, s.dropped⟩ : Resource) = _
      rw [List.append_assoc]
      rfl

/-- The attributes and the count in the resource. -/
theorem resourceLogsField_resource {explicit : UInt32 → Bool} {m : ResourceMessage}
    {resource : Bytes} {r : Reader}
    (h : Sent [1, 2] (m.attributes.map (pairField 1)
      ++ optField explicit (m.dropped = 0) (2, .varint m.dropped)) resource)
    (hsize : resource.length < 2 ^ 64) (hdepth : r.depth = 1)
    (hm : ∀ a ∈ m.attributes, 4 + a.2.depth ≤ maxDepth) (s : Resource × List Reader) :
    ∃ read, resourceLogsField fl r 1 (.bytes resource) s = .ok (read, s.2) ∧
      ∀ dropped, s.1 = ⟨[], none, dropped⟩ →
        read = ⟨attrsOf fl protoRendering m.attributes,
          serviceOf (attrsOf fl protoRendering m.attributes), dropped + m.dropped⟩ := by
  have hpair : ∀ pair ∈ m.attributes,
      (Reader.nested resource (r.depth + 1)).depth + 2 + pair.2.depth ≤ maxDepth ∧
        (pairField 1 pair).2.payload.length < 2 ^ 64 := by
    intro pair hpair
    have hlevel := hm pair hpair
    have hmem : pairField 1 pair ∈ m.attributes.map (pairField 1)
        ++ optField explicit (m.dropped = 0) (2, .varint m.dropped) :=
      List.mem_append_left _ (List.mem_map_of_mem hpair)
    refine ⟨?_, (h.payload_le hmem (by simp [pairField])).trans_lt hsize⟩
    show r.depth + 1 + 2 + pair.2.depth ≤ maxDepth
    omega
  have hread : Readable (resourceField fl (.nested resource (r.depth + 1)))
      (m.attributes.map (pairField 1)
        ++ optField explicit (m.dropped = 0) (2, .varint m.dropped)) := by
    refine .append ?_ (.opt fun _ s => ⟨_, rfl⟩)
    intro f hf s
    obtain ⟨pair, hin, rfl⟩ := List.mem_map.mp hf
    obtain ⟨hlevel, hlength⟩ := hpair pair hin
    exact ⟨_, resourceField_attribute s hlevel hlength⟩
  have hindependent : Independent (resourceField fl (.nested resource (r.depth + 1))) :=
    independent_resourceField _
  have heach := eachField_nested hindependent (ignores_resourceField _) h hsize hread (r.depth + 1)
    s.1
  refine ⟨(m.attributes.map (pairField 1)
      ++ optField explicit (m.dropped = 0) (2, .varint m.dropped)).foldl
      (done (resourceField fl (.nested resource (r.depth + 1)))) s.1, ?_, ?_⟩
  · show ((Field.bytes resource).message r >>= fun m =>
      eachField (resourceField fl m) m s.1 >>= fun read => pure (read, s.2)) = _
    rw [message_step (hdepth ▸ by decide), heach]
    rfl
  · intro dropped hstart
    rw [hstart, List.foldl_append, foldl_resource hpair]
    simp only [List.nil_append, Option.or_none]
    refine foldl_opt_last rfl fun hunset => ?_
    rw [of_decide_eq_true hunset]
    show (⟨_, _, dropped + 0⟩ : Resource) = _
    rw [UInt64.add_zero]

/-- The records of a resource that is sent are read as what they mean. -/
theorem resourceLogs_sent {m : ResourceMessage} {r : Reader} (h : m.SentAs r.rest)
    (hsize : r.rest.length < 2 ^ 64) (hdepth : r.depth = 1)
    (hm : (∀ a ∈ m.attributes, 4 + a.2.depth ≤ maxDepth) ∧
      ∀ s ∈ m.scopes, ∀ l ∈ s.records, l.Shallow)
    (ids : ℕ → Uuid) (now : UInt64) (out : Decoded) :
    resourceLogs fl r ids now out = .ok (m.addTo fl protoRendering ids now out) := by
  obtain ⟨explicit, resource, parts, hresource, hparts, hsent⟩ := h
  have hroom : r.depth < maxDepth := hdepth ▸ (by decide)
  have hpart : ∀ p ∈ parts, p.length < 2 ^ 64 := by
    intro p hp
    have hmem : partField 2 p ∈ optField explicit (m.attributes.isEmpty && m.dropped = 0)
        (1, .bytes resource) ++ parts.map (partField 2) :=
      List.mem_append_right _ (List.mem_map_of_mem hp)
    exact (hsent.payload_le hmem (by simp [partField])).trans_lt hsize
  have hheld : (1, Field.bytes resource)
      ∈ optField explicit (m.attributes.isEmpty && m.dropped = 0) (1, .bytes resource) →
      resource.length < 2 ^ 64 := fun hmem =>
    (hsent.payload_le (List.mem_append_left _ hmem) (by simp)).trans_lt hsize
  have hnext : ∀ p s, resourceLogsField fl r 2 (.bytes p) s
      = .ok (s.1, s.2 ++ [.nested p (r.depth + 1)]) := by
    intro p s
    show ((Field.bytes p).message r >>= fun m => pure (s.1, s.2 ++ [m])) = _
    rw [message_step hroom]
    rfl
  have hread : Readable (resourceLogsField fl r)
      (optField explicit (m.attributes.isEmpty && m.dropped = 0) (1, .bytes resource)
        ++ parts.map (partField 2)) := by
    refine .append (.opt fun hmem s => ?_) (.parts fun p _ s => ⟨_, hnext p s⟩)
    obtain ⟨read, hread, -⟩ :=
      resourceLogsField_resource hresource (hheld hmem) hdepth hm.1 s
    exact ⟨_, hread⟩
  have hfold : (optField explicit (m.attributes.isEmpty && m.dropped = 0) (1, .bytes resource)
      ++ parts.map (partField 2)).foldl (done (resourceLogsField fl r))
        (⟨[], none, .ofNat out.droppedUpstream⟩, [])
      = (⟨attrsOf fl protoRendering m.attributes,
          serviceOf (attrsOf fl protoRendering m.attributes),
          .ofNat out.droppedUpstream + m.dropped⟩,
        parts.map fun p => .nested p (r.depth + 1)) := by
    have hopt := @foldl_opt_of _ (resourceLogsField fl r) explicit
      (m.attributes.isEmpty && m.dropped = 0) (1, Field.bytes resource) (parts.map (partField 2))
      (⟨[], none, .ofNat out.droppedUpstream⟩, [])
      (⟨attrsOf fl protoRendering m.attributes,
        serviceOf (attrsOf fl protoRendering m.attributes),
        .ofNat out.droppedUpstream + m.dropped⟩, []) ?_ ?_
    · rw [hopt, foldl_pending hnext]
      rfl
    · intro hmem
      obtain ⟨read, hread, hstart⟩ := resourceLogsField_resource hresource (hheld hmem) hdepth hm.1
        (⟨[], none, .ofNat out.droppedUpstream⟩, [])
      rw [hread, hstart _ rfl]
    · intro hunset
      rw [Bool.and_eq_true, List.isEmpty_iff, decide_eq_true_eq] at hunset
      rw [hunset.1, hunset.2, UInt64.add_zero]
      rfl
  rw [resourceLogs, eachField_sent (independent_resourceLogsField r) (ignores_resourceLogsField r)
    hsent hsize hread, hfold]
  refine foldlM_parts hparts (fun s hs p hp hsp out => ?_) _
  exact @scopeLogs_sent fl s (.nested p (r.depth + 1)) hsp (hpart p hp)
    (congrArg (· + 1) hdepth) (hm.2 s hs) ids now _ out

/-- The loop over a request, from any records that were read before. -/
theorem eachRequest_sent {request : List ResourceMessage} {bytes : Bytes}
    (h : RequestSent request bytes) (hshallow : Shallow request) (ids : ℕ → Uuid) (now : UInt64)
    (out : Decoded) : eachField (requestField fl (.new bytes) ids now) (.new bytes) out
      = .ok (request.foldl (ResourceMessage.addTo fl protoRendering ids now) out) := by
  obtain ⟨hsize, parts, hparts, hsent⟩ := h
  have hignores : Ignores (requestField fl (.new bytes) ids now) [1] := by
    intro number v s hnumber
    rw [requestField, if_neg fun heq => hnumber (List.mem_singleton.mpr heq)]
    rfl
  have hstep : ∀ m ∈ request, ∀ p ∈ parts, ResourceMessage.SentAs m p → ∀ out,
      requestField fl (.new bytes) ids now 1 (.bytes p) out
        = .ok (m.addTo fl protoRendering ids now out) := by
    intro m hm p hp hmp out
    have hlength : p.length < 2 ^ 64 :=
      (hsent.payload_le (List.mem_map_of_mem hp) (by simp [partField])).trans_lt hsize
    have hread := @resourceLogs_sent fl m (.nested p 1) hmp hlength rfl (hshallow m hm) ids now out
    rw [requestField, if_pos rfl, message_step (show 0 < maxDepth by decide)]
    exact hread
  have hread : Readable (requestField fl (.new bytes) ids now) (parts.map (partField 1)) := by
    refine .parts fun p hp s => ?_
    obtain ⟨m, hm, hmp⟩ := exists_of_part hparts hp
    exact ⟨_, hstep m hm p hp hmp s⟩
  have hrest : Sent [1] (parts.map (partField 1)) (Reader.new bytes).rest := hsent
  rw [eachField_sent (independent_of_one hignores) hignores hrest hsize hread,
    foldl_parts hparts hstep]

end

/-! ## The plain encoding -/

section

/-- Every field is written, in the order of the message. -/
def LogMessage.encode (m : LogMessage) : Bytes := message (m.fields fun _ => true)

def ScopeMessage.encode (m : ScopeMessage) : Bytes :=
  message ((1, .bytes (message [textField 1 m.name]))
    :: (m.records.map LogMessage.encode).map (partField 2))

def ResourceMessage.encode (m : ResourceMessage) : Bytes :=
  message ((1, .bytes (message (m.attributes.map (pairField 1) ++ [(2, .varint m.dropped)])))
    :: (m.scopes.map ScopeMessage.encode).map (partField 2))

def encodeRequest (request : List ResourceMessage) : Bytes :=
  message ((request.map ResourceMessage.encode).map (partField 1))

theorem sent_message {fields : List (UInt32 × Field)} (h : Numbered fields)
    (numbers : List UInt32) : Sent numbers fields (message fields) :=
  ⟨fields, fun _ _ => rfl, h, rfl⟩

theorem numbered_map {α : Type} {number : UInt32} {field : α → UInt32 × Field}
    (hfield : ∀ a, (field a).1 = number) (hnumber : 1 ≤ number.toNat ∧ number.toNat < 2 ^ 29)
    (l : List α) : Numbered (l.map field) := by
  intro f hf
  obtain ⟨a, -, rfl⟩ := List.mem_map.mp hf
  rw [hfield a]
  exact hnumber

theorem forall₂_map {α β : Type} {P : α → β → Prop} {f : α → β} (h : ∀ a, P a (f a))
    (l : List α) : List.Forall₂ P l (l.map f) := by
  induction l with
  | nil => exact .nil
  | cons a l ih => exact .cons (h a) ih

theorem LogMessage.numbered_fields (m : LogMessage) (explicit : UInt32 → Bool) :
    Numbered (m.fields explicit) := by
  intro f hf
  have hknown := fields_known hf
  simp only [recordNumbers, List.mem_cons, List.not_mem_nil, or_false] at hknown
  generalize f.1 = number at hknown ⊢
  -- each number by itself: over all of `UInt32` this is not for `decide`
  rcases hknown with rfl | rfl | rfl | rfl | rfl | rfl | rfl | rfl | rfl | rfl <;> decide

theorem LogMessage.sentAs_encode (m : LogMessage) : m.SentAs m.encode :=
  ⟨fun _ => true, sent_message (m.numbered_fields _) _⟩

theorem ScopeMessage.sentAs_encode (m : ScopeMessage) : m.SentAs m.encode := by
  have hparts := @numbered_map _ 2 (partField 2) (fun _ => rfl) (by decide)
    (m.records.map LogMessage.encode)
  refine ⟨fun _ => true, message [textField 1 m.name], m.records.map LogMessage.encode, ?_,
    forall₂_map LogMessage.sentAs_encode _, ?_⟩
  · rw [optField, Bool.not_true, Bool.and_false]
    exact sent_message (Numbered.cons (by decide) .nil) _
  · rw [optField, Bool.not_true, Bool.and_false]
    exact sent_message (Numbered.cons (by decide) hparts) _

theorem ResourceMessage.sentAs_encode (m : ResourceMessage) : m.SentAs m.encode := by
  have hparts := @numbered_map _ 2 (partField 2) (fun _ => rfl) (by decide)
    (m.scopes.map ScopeMessage.encode)
  have hattributes := @numbered_map _ 1 (pairField 1) (fun _ => rfl) (by decide) m.attributes
  refine ⟨fun _ => true, message (m.attributes.map (pairField 1) ++ [(2, .varint m.dropped)]),
    m.scopes.map ScopeMessage.encode, ?_, forall₂_map ScopeMessage.sentAs_encode _, ?_⟩
  · rw [optField, Bool.not_true, Bool.and_false]
    refine sent_message (fun f hf => ?_) _
    rcases List.mem_append.mp hf with hf | hf
    · exact hattributes f hf
    · rw [List.mem_singleton.mp hf]
      exact (by decide : 1 ≤ (2 : UInt32).toNat ∧ (2 : UInt32).toNat < 2 ^ 29)
  · rw [optField, Bool.not_true, Bool.and_false]
    exact sent_message (Numbered.cons (by decide) hparts) _

/-- Every request can be sent. -/
theorem requestSent_encode {request : List ResourceMessage}
    (h : (encodeRequest request).length < 2 ^ 64) : RequestSent request (encodeRequest request) :=
  ⟨h, _, forall₂_map ResourceMessage.sentAs_encode _,
    sent_message (@numbered_map _ 1 (partField 1) (fun _ => rfl) (by decide) _) _⟩

end

/-- A request that is sent is read as what it means. -/
theorem decodeRequest_sent (fl : Floats) {request : List ResourceMessage} {bytes : Bytes}
    (h : RequestSent request bytes) (hshallow : Shallow request) (ids : ℕ → Uuid) (now : UInt64) :
    decodeRequest fl ids now bytes = .ok (meaning fl protoRendering ids now request) := by
  rw [decodeRequest, meaning]
  exact eachRequest_sent h hshallow ids now ⟨[], 0⟩

/-- One record of one service, with a list of pairs. -/
def checkout : List ResourceMessage :=
  [⟨[("service.name".toList, .str "checkout".toList)], 1,
    [⟨"app".toList,
      [⟨7, 0, 17, [], .kvlist [("code".toList, .int 502), ("retry".toList, .bool true)],
        [("user".toList, .array [.str "a".toList, .int (-1)])], 2, [], List.replicate 8 1, []⟩]⟩]⟩]

theorem checkout_shallow : Shallow checkout := by
  simp [Shallow, checkout, LogMessage.Shallow, AnyValue.depth, itemsDepth, pairsDepth, maxDepth]

def eventId (n : ℕ) : Uuid := ⟨List.replicate 16 n.toUInt8, List.length_replicate⟩

theorem decodeRequest_sent_checkout :
    decodeRequest ⟨fun _ => "0".toList, UInt32.toUInt64, id⟩ eventId 9 (encodeRequest checkout)
      = .ok (meaning ⟨fun _ => "0".toList, UInt32.toUInt64, id⟩ protoRendering eventId 9
        checkout) := by
  have hsize : (encodeRequest checkout).length < 2 ^ 64 := by decide +kernel
  exact decodeRequest_sent _ (requestSent_encode hsize) checkout_shallow eventId 9

end LogLess.Otlp
