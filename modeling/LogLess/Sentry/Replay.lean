import LogLess.Lib.Float64
import LogLess.Sentry.Envelope

/-!
# Replay of stored items

`item_to_record` keeps the payload of an item as a string attribute, and `envelope_from_record`
makes an envelope of it again, with an item header that is put together from text. What a JSON
string cannot hold as it is comes back as something else, and so does a payload that is not UTF-8.
-/

namespace LogLess.Sentry

open Frames (Bytes)
open Json (Value)

/-! ## From an item to a record -/

def get (v : Value) (name : Text) : Option Value :=
  match v with
  | .obj members => member members name
  | _ => none

/-- `Value::pointer`, along names. -/
def pointer (v : Value) (path : List Text) : Option Value := path.foldlM get v

def readArr : Value → Option (List Value)
  | .arr vs => some vs
  | _ => none

def strAt (v : Value) (path : List Text) : Option Text := (pointer v path).bind Serde.readStr

def eventSummary (v : Value) : Text :=
  match ((pointer v ["exception".toList, "values".toList]).bind readArr).bind List.getLast? with
  | some last =>
    let kind := (strAt last ["type".toList]).getD "Error".toList
    let value := (strAt last ["value".toList]).getD []
    if value.isEmpty then kind else kind ++ ": ".toList ++ value
  | none =>
    let texts := [["logentry".toList, "formatted".toList], ["logentry".toList, "message".toList],
      ["message".toList]].filterMap (strAt v)
    (texts.find? fun text => !text.isEmpty).getD "sentry event".toList

/-- `(s * 1.0e9) as u64`, which saturates. -/
def nanosOf : Float64.F64 → ℕ
  | .nan => 0
  | .negInf => 0
  | .posInf => 2 ^ 64 - 1
  | .finite q =>
    match Float64.ofRat (q < 0) (|q| * 10 ^ 9) with
    | .nan => 0
    | .negInf => 0
    | .posInf => 2 ^ 64 - 1
    | .finite r => min (2 ^ 64 - 1) ⌊r⌋.toNat

def eventTimestamp (v : Value) : Option ℕ :=
  match get v "timestamp".toList with
  | some (.num lexeme) => (Float64.parse lexeme).map nanosOf
  | _ => none

def hexArray (n : ℕ) (text : Text) : Option (ByteArr n) :=
  match Serde.unhex (text.filter fun c => (Json.hexValue c).isSome) with
  | some bytes => if h : bytes.length = n then some ⟨bytes, h⟩ else none
  | none => none

def traceIds (v : Value) : Option (ByteArr 16) × Option (ByteArr 8) :=
  ((strAt v ["contexts".toList, "trace".toList, "trace_id".toList]).bind (hexArray 16),
    (strAt v ["contexts".toList, "trace".toList, "span_id".toList]).bind (hexArray 8))

/-- Members of an event, and the attributes they become. -/
def eventAttrs : List (Text × Text) :=
  [("release".toList, "sentry.release".toList), ("environment".toList, "sentry.environment".toList),
    ("platform".toList, "sentry.platform".toList),
    ("server_name".toList, "sentry.server_name".toList),
    ("transaction".toList, "sentry.transaction".toList)]

/-- What a record says of its item besides the attributes of every item. -/
def describe (record : LogRecord) (item : Item) (project : Text) (now : ℕ) : LogRecord :=
  let service := some ("sentry:".toList ++ project)
  let json :=
    if item.itemType = .attachment then none else (Utf8.strict item.payload).bind Json.parse
  match json, item.itemType with
  | some v, .event =>
    { record with
      severity := ((strAt v ["level".toList]).bind Severity.fromText).getD .ERROR
      severityText := strAt v ["level".toList]
      body := eventSummary v
      timestampUnixNano := (eventTimestamp v).getD now
      attributes := eventAttrs.filterMap fun names =>
        (strAt v [names.1]).map fun value => ⟨names.2, .str value⟩
      service := (strAt v ["server_name".toList]).or service
      traceId := (traceIds v).1
      spanId := (traceIds v).2 }
  | some v, .transaction =>
    { record with
      body := "transaction ".toList ++ (strAt v ["transaction".toList]).getD "?".toList
      timestampUnixNano := (eventTimestamp v).getD now
      service := service
      traceId := (traceIds v).1
      spanId := (traceIds v).2 }
  | _, .attachment =>
    { record with
      body := "attachment ".toList ++ Decimal.ofNat item.payload.length ++ " bytes".toList
      service := service
      attributes := [⟨"sentry.attachment_bytes".toList, .i64 item.payload.length⟩] }
  | _, _ =>
    { record with
      body := item.typeName ++ " item".toList
      service := service }

/-- The attributes of every item. -/
def itemAttrs (item : Item) (project key : Text) (env : Envelope) : List Attr :=
  [⟨"sentry.project".toList, .str project⟩, ⟨"sentry.key".toList, .str key⟩,
    ⟨"sentry.item_type".toList, .str item.typeName⟩] ++
    (env.eventId.map fun id => ⟨"sentry.event_id".toList, .str id⟩).toList

/-- The payload of an item, unless it is an attachment. -/
def payloadAttr (item : Item) : List Attr :=
  if item.itemType = .attachment then []
  else [⟨"sentry.payload".toList, .str (Utf8.lossy item.payload)⟩]

/-- `eventId` is the id that the record is given. -/
def itemToRecord (eventId : Uuid) (item : Item) (project key : Text) (env : Envelope) (now : ℕ) :
    LogRecord :=
  let record := describe (LogRecord.new eventId now .INFO []) item project now
  { record with
    attributes := itemAttrs item project key env ++ record.attributes ++ payloadAttr item }

/-! ## From a record to an envelope -/

/-- The text of the first attribute of a name. -/
def strAttr (record : LogRecord) (key : Text) : Option Text :=
  (record.attributes.find? fun a => a.key = key).bind fun a =>
    match a.value with
    | .str s => some s
    | _ => none

/-- What follows the type in an item header, from the closing quote on. -/
def headerTail (length : ℕ) : Text :=
  "\",\"length\":".toList ++ Decimal.ofNat length ++ "\x7d".toList

/-- The item header that is put together: the type is not escaped. -/
def headerText (itemType : Text) (length : ℕ) : Text :=
  "\x7b\"type\":\"".toList ++ itemType ++ headerTail length

def replayEnvelope (eventId itemType : Text) (payload : Bytes) : Envelope where
  header := [("event_id".toList, .str eventId)]
  items :=
    [{ headerRaw := Utf8.encode (headerText itemType payload.length)
       itemType := .parse itemType
       typeName := itemType
       payload := payload
       hadLength := true }]

/-- `fresh` is the event id made when the record has none. -/
def envelopeFromRecord (fresh : Text) (record : LogRecord) : Option (Text × Envelope) := do
  let payload ← strAttr record "sentry.payload".toList
  let itemType := (strAttr record "sentry.item_type".toList).getD "event".toList
  let project ← strAttr record "sentry.project".toList
  let eventId := (strAttr record "sentry.event_id".toList).getD fresh
  return (project, replayEnvelope eventId itemType (Utf8.encode payload))

/-! ## What a record keeps -/

theorem find_concat {attrs : List Attr} {key : Text} (h : ∀ a ∈ attrs, a.key ≠ key)
    (v : AttrValue) : (attrs ++ [Attr.mk key v]).find? (fun a => a.key = key) = some ⟨key, v⟩ := by
  have hnone : attrs.find? (fun a => decide (a.key = key)) = none := by
    rw [List.find?_eq_none]
    intro a ha
    rw [decide_eq_true_eq]
    exact h a ha
  rw [List.find?_append, hnone, Option.none_or]
  exact List.find?_cons_of_pos (decide_eq_true rfl)

theorem find_third {k₁ k₂ key : Text} (h₁ : k₁ ≠ key) (h₂ : k₂ ≠ key) (v₁ v₂ v : AttrValue)
    (rest : List Attr) : (Attr.mk k₁ v₁ :: Attr.mk k₂ v₂ :: Attr.mk key v :: rest).find?
      (fun a => a.key = key) = some ⟨key, v⟩ := by
  rw [List.find?_cons_of_neg (by simpa using h₁), List.find?_cons_of_neg (by simpa using h₂)]
  exact List.find?_cons_of_pos (decide_eq_true rfl)

/-- The keys of the attributes an event has of its own, and of those every item has. -/
theorem keys_ne_payload : (eventAttrs.all fun names => names.2 ≠ "sentry.payload".toList) = true ∧
    ["sentry.project".toList, "sentry.key".toList, "sentry.item_type".toList,
      "sentry.event_id".toList].all (fun key => key ≠ "sentry.payload".toList) = true := by
  decide +kernel

theorem key_of_mem_itemAttrs {item : Item} {project key : Text} {env : Envelope} {a : Attr}
    (h : a ∈ itemAttrs item project key env) :
    a.key ∈ ["sentry.project".toList, "sentry.key".toList, "sentry.item_type".toList,
      "sentry.event_id".toList] := by
  rcases List.mem_append.mp h with h | h
  · have hkey := List.mem_map_of_mem (f := Attr.key) h
    exact List.mem_of_mem_take (i := 3) hkey
  · obtain ⟨id, -, rfl⟩ := Option.map_eq_some_iff.mp (Option.mem_toList.mp h)
    have hfirst : "sentry.event_id".toList ∈ ["sentry.event_id".toList] := List.mem_cons_self
    exact List.mem_cons_of_mem _ (List.mem_cons_of_mem _ (List.mem_cons_of_mem _ hfirst))

/-- An item that is no attachment adds attributes of an event or none. -/
theorem key_of_mem_describe {record : LogRecord} (hrecord : record.attributes = []) {item : Item}
    (hitem : item.itemType ≠ .attachment) {project : Text} {now : ℕ} {a : Attr}
    (h : a ∈ (describe record item project now).attributes) : a.key ∈ eventAttrs.map Prod.snd := by
  unfold describe at h
  simp only at h
  split at h
  · obtain ⟨names, hnames, ha⟩ := List.mem_filterMap.mp h
    obtain ⟨value, -, rfl⟩ := Option.map_eq_some_iff.mp ha
    exact List.mem_map_of_mem hnames
  · rw [hrecord] at h
    cases h
  · next heq => exact absurd heq hitem
  · rw [hrecord] at h
    cases h

theorem strAttr_payload (eventId : Uuid) {item : Item} (project key : Text) (env : Envelope)
    (now : ℕ) (h : item.itemType ≠ .attachment) :
    strAttr (itemToRecord eventId item project key env now) "sentry.payload".toList
      = some (Utf8.lossy item.payload) := by
  have hattrs : ∀ a ∈ itemAttrs item project key env
      ++ (describe (LogRecord.new eventId now .INFO []) item project now).attributes,
      a.key ≠ "sentry.payload".toList := by
    intro a ha
    rcases List.mem_append.mp ha with ha | ha
    · exact of_decide_eq_true (List.all_eq_true.mp keys_ne_payload.2 _ (key_of_mem_itemAttrs ha))
    · obtain ⟨names, hnames, hkey⟩ := List.mem_map.mp (key_of_mem_describe rfl h ha)
      rw [← hkey]
      exact of_decide_eq_true (List.all_eq_true.mp keys_ne_payload.1 _ hnames)
  have hpayload : payloadAttr item = [⟨"sentry.payload".toList, .str (Utf8.lossy item.payload)⟩] :=
    if_neg h
  have hfind := find_concat hattrs (.str (Utf8.lossy item.payload))
  rw [← hpayload] at hfind
  exact congrArg (fun found : Option Attr => found.bind _) hfind

/-- The first three attributes of a record. -/
theorem strAttr_item (eventId : Uuid) (item : Item) (project key : Text) (env : Envelope)
    (now : ℕ) :
    strAttr (itemToRecord eventId item project key env now) "sentry.item_type".toList
        = some item.typeName ∧
      strAttr (itemToRecord eventId item project key env now) "sentry.project".toList
        = some project := by
  have hne : "sentry.project".toList ≠ "sentry.item_type".toList ∧
      "sentry.key".toList ≠ "sentry.item_type".toList := by
    decide +kernel
  have hattrs : ∃ rest, (itemToRecord eventId item project key env now).attributes
      = Attr.mk "sentry.project".toList (.str project) :: Attr.mk "sentry.key".toList (.str key)
        :: Attr.mk "sentry.item_type".toList (.str item.typeName) :: rest :=
    ⟨(env.eventId.map fun id => Attr.mk "sentry.event_id".toList (.str id)).toList
      ++ (describe (LogRecord.new eventId now .INFO []) item project now).attributes
      ++ payloadAttr item, rfl⟩
  obtain ⟨rest, hattrs⟩ := hattrs
  rw [strAttr, strAttr, hattrs, find_third hne.1 hne.2]
  exact ⟨rfl, congrArg (fun found : Option Attr => found.bind _)
    (List.find?_cons_of_pos (decide_eq_true rfl))⟩

/-- The envelope a stored item is sent in again. -/
theorem envelopeFromRecord_item (fresh : Text) (eventId : Uuid) {item : Item} (project key : Text)
    (env : Envelope) (now : ℕ) (h : item.itemType ≠ .attachment) :
    ∃ id, envelopeFromRecord fresh (itemToRecord eventId item project key env now)
      = some (project,
        replayEnvelope id item.typeName (Utf8.encode (Utf8.lossy item.payload))) := by
  obtain ⟨htype, hproject⟩ := strAttr_item eventId item project key env now
  refine ⟨(strAttr (itemToRecord eventId item project key env now) "sentry.event_id".toList).getD
    fresh, ?_⟩
  rw [envelopeFromRecord, strAttr_payload eventId project key env now h, htype, hproject]
  rfl

/-! ## The header that is put together -/

/-- A type that a JSON string holds as it is. -/
def plainType (itemType : Text) : Bool := itemType.all fun c => !Json.special c

/-- The names in a header are plain. -/
theorem header_names : (plainType "type".toList = true ∧ plainType "length".toList = true) ∧
    "length".toList ≠ "type".toList := by
  decide +kernel

/-- What is put around the type and the length. -/
theorem header_texts :
    "\x7b\"type\":\"".toList = '{' :: '"' :: ("type".toList ++ ['"', ':', '"']) ∧
      "\",\"length\":".toList = '"' :: ',' :: '"' :: ("length".toList ++ ['"', ':']) ∧
      "\x7d".toList = ['}'] := by
  decide +kernel

theorem count_of_plain {t : Text} (h : plainType t = true) {c : Char}
    (hc : Json.special c = true) : t.count c = 0 := by
  rw [List.count_eq_zero]
  intro hmem
  have hplain := List.all_eq_true.mp h c hmem
  rw [hc] at hplain
  cases hplain

def headerMembers (itemType : Text) (length : ℕ) : List (Text × Value) :=
  [("type".toList, .str itemType), ("length".toList, Serde.natValue length)]

/-- The text up to the type, character by character. -/
theorem headerText_eq (itemType : Text) (length : ℕ) : headerText itemType length
    = '{' :: '"' :: ("type".toList ++ '"' :: ':' :: '"' :: (itemType ++ headerTail length)) := by
  have hlist : ∀ name rest : Text, '{' :: '"' :: (name ++ ['"', ':', '"']) ++ itemType ++ rest
      = '{' :: '"' :: (name ++ '"' :: ':' :: '"' :: (itemType ++ rest)) := by
    intro name rest
    simp
  exact (congrArg (fun t : Text => t ++ itemType ++ headerTail length) header_texts.1).trans (hlist _ _)

theorem headerTail_eq (length : ℕ) : headerTail length
    = '"' :: ',' :: '"' :: ("length".toList ++ '"' :: ':' :: (Decimal.ofNat length ++ ['}'])) := by
  obtain ⟨-, hbegin, hend⟩ := header_texts
  have hlist : ∀ name digits : Text, '"' :: ',' :: '"' :: (name ++ ['"', ':']) ++ digits ++ ['}']
      = '"' :: ',' :: '"' :: (name ++ '"' :: ':' :: (digits ++ ['}'])) := by
    intro name digits
    simp
  exact (congrArg₂ (fun t e : Text => t ++ Decimal.ofNat length ++ e) hbegin hend).trans (hlist _ _)

/-- A plain type makes the header that a serializer writes. -/
theorem headerText_of_plain {itemType : Text} (h : plainType itemType = true) (length : ℕ) :
    headerText itemType length = Json.render (.obj (headerMembers itemType length)) := by
  have hnames := header_names.1
  rw [headerText_eq, headerTail_eq]
  simp only [headerMembers, Json.render, Json.renderMembers, Json.quote, Json.flatMap_escape h,
    Json.flatMap_escape hnames.1, Json.flatMap_escape hnames.2, Serde.natValue, Serde.ofInt_natCast,
    List.append_assoc, List.cons_append, List.nil_append]

example : headerText "event".toList 2 = "\x7b\"type\":\"event\",\"length\":2\x7d".toList := by
  decide +kernel

/-- What the type of a header is read as. -/
theorem typeOf_headerMembers (itemType : Text) (length : ℕ) :
    typeOf (headerMembers itemType length) = itemType := by
  have hne := header_names.2
  have hmember : member (headerMembers itemType length) "type".toList = some (.str itemType) := by
    show member ([] ++ [_] ++ [_]) _ = _
    rw [member_concat, if_neg hne, member_concat, if_pos rfl]
  rw [typeOf, hmember]
  rfl

theorem lengthOf_headerMembers (itemType : Text) {length : ℕ} (h : length < 2 ^ 64) :
    lengthOf (headerMembers itemType length) = some length := by
  have hmember : member (headerMembers itemType length) "length".toList
      = some (Serde.natValue length) := by
    show member ([_] ++ [_]) _ = _
    rw [member_concat, if_pos rfl]
  rw [lengthOf, hmember, Option.bind_some, Serde.readNat_natValue h]

/-- An envelope made of a plain type can be read back. -/
theorem framed_of_plain {itemType : Text} (h : plainType itemType = true) {payload : Bytes}
    (hlength : payload.length < 2 ^ 64) (id : Text) :
    (replayEnvelope id itemType payload).Framed := by
  have hvalid : Json.validMembers (headerMembers itemType payload.length) = true := by
    simp [headerMembers, Json.validMembers, Json.Value.valid, Serde.valid_natValue]
  refine ⟨?_, (by decide : 1 ≤ maxItems), rfl⟩
  intro item hitem
  obtain rfl := List.mem_singleton.mp hitem
  rw [headerText_of_plain h]
  have hlengthOf := lengthOf_headerMembers itemType hlength
  refine ⟨newline_notMem_render (v := .obj _) hvalid, headerMembers itemType payload.length,
    jsonObject_render hvalid, (typeOf_headerMembers itemType payload.length).symm, rfl, ?_, ?_, ?_⟩
  · rw [hlengthOf]
    rfl
  · rw [hlengthOf]
    simp
  · rw [hlengthOf]
    exact fun hnone => by cases hnone

/-! ### A type that is not plain -/

theorem mem_of_member {members : List (Text × Value)} {name : Text} {v : Value}
    (h : member members name = some v) : (name, v) ∈ members := by
  obtain ⟨m, hm, rfl⟩ := Option.map_eq_some_iff.mp h
  have hname : m.1 = name :=
    of_decide_eq_true (List.find?_some (p := fun m : Text × Value => decide (m.1 = name)) hm)
  have hmem := List.mem_reverse.mp (List.mem_of_find?_eq_some hm)
  rwa [← hname]

theorem specials_le {members : List (Text × Value)} {name s : Text}
    (h : (name, Value.str s) ∈ members) : s.countP Json.special ≤ Json.specialsMembers members := by
  induction members with
  | nil => cases h
  | cons m members ih =>
    rw [Json.specialsMembers]
    rcases List.mem_cons.mp h with rfl | h
    · rw [Value.specials]
      omega
    · have := ih h
      omega

theorem count_slash_le (t : Text) : t.count '\\' ≤ t.countP Json.special := by
  rw [List.count]
  apply List.countP_mono_left
  intro c _ hc
  rw [eq_of_beq hc]
  decide

/-- A text with no more special characters than backslashes has no others. -/
theorem special_eq_slash {t : Text} (h : t.countP Json.special ≤ t.count '\\') :
    ∀ c ∈ t, Json.special c = true → c = '\\' := by
  induction t with
  | nil => simp
  | cons d t ih =>
    have hle := count_slash_le t
    rw [List.countP_cons, List.count_cons] at h
    by_cases hd : d = '\\'
    · have hspecial : Json.special d = true := by
        rw [hd]
        decide
      rw [if_pos hspecial, if_pos (by rw [hd]; decide)] at h
      exact List.forall_mem_cons.mpr ⟨fun _ => hd, ih (by omega)⟩
    · have hslash : (if (d == '\\') = true then 1 else 0) = 0 := if_neg (by simpa using hd)
      rw [hslash] at h
      by_cases hspecial : Json.special d = true
      · rw [if_pos hspecial] at h
        omega
      · rw [if_neg hspecial] at h
        exact List.forall_mem_cons.mpr ⟨fun hs => absurd hs hspecial, ih h⟩

/-- The header holds a backslash or a newline only where the type does. -/
theorem headerText_count {c : Char} (hc : c = '\\' ∨ c = '\n') (itemType : Text) (length : ℕ) :
    (headerText itemType length).count c = itemType.count c ∧ (headerTail length).count c = 0 := by
  have hdigit : c.isDigit = false := by
    rcases hc with rfl | rfl <;> decide
  have hne : '{' ≠ c ∧ '"' ≠ c ∧ ':' ≠ c ∧ ',' ≠ c ∧ '}' ≠ c := by
    rcases hc with rfl | rfl <;> decide
  have hspecial : Json.special c = true := by
    rcases hc with rfl | rfl <;> decide
  have hnames := header_names.1.imp (count_of_plain · hspecial) (count_of_plain · hspecial)
  have hdigits : (Decimal.ofNat length).count c = 0 := by
    rw [List.count_eq_zero]
    intro hmem
    rw [Decimal.isDigit_of_mem_ofNat hmem] at hdigit
    cases hdigit
  obtain ⟨hopen, hquote, hcolon, hcomma, hclose⟩ := hne
  have htail : (headerTail length).count c = 0 := by
    rw [headerTail_eq, List.count_cons_of_ne hquote, List.count_cons_of_ne hcomma,
      List.count_cons_of_ne hquote, List.count_append, List.count_cons_of_ne hquote,
      List.count_cons_of_ne hcolon, List.count_append, List.count_cons_of_ne hclose, hdigits,
      hnames.2]
    rfl
  refine ⟨?_, htail⟩
  rw [headerText_eq, List.count_cons_of_ne hopen, List.count_cons_of_ne hquote, List.count_append,
    List.count_cons_of_ne hquote, List.count_cons_of_ne hcolon, List.count_cons_of_ne hquote,
    List.count_append, htail, hnames.1]
  omega

/-- A backslash that a type begins an escape with does not come back. -/
theorem no_slash {itemType : Text} {length : ℕ} {members : List (Text × Value)}
    (hslash : ∀ c ∈ itemType, Json.special c = true → c = '\\')
    (h : Json.parse (headerText itemType length) = some (.obj members))
    (htype : ("type".toList, Value.str itemType) ∈ members) :
    itemType.countP Json.special = 0 := by
  have hname : "type".toList.flatMap Json.escape = "type".toList :=
    Json.flatMap_escape header_names.1.1
  have hquotes : itemType.count '"' = 0 := by
    rw [List.count_eq_zero]
    intro hmem
    exact absurd (hslash _ hmem (by decide)) (by decide)
  have htail := (headerText_count (.inl rfl) itemType length).2
  rw [headerText_eq] at h
  obtain ⟨s, rest, more, rfl, hs, hmore⟩ := Json.members_of_parse hname h
  obtain ⟨raw, hraw, hrawQuotes, hlen, -⟩ := Json.string_eq_some hs
  -- the type has no quote, so the first string goes to its end at least
  have hsplit : raw = itemType ∨ ∃ t, raw = itemType ++ '"' :: t := by
    rcases List.append_eq_append_iff.mp hraw with ⟨t, hraw', htail'⟩ | ⟨t, htype', hrest⟩
    · cases t with
      | nil => exact .inl (by rw [hraw', List.append_nil])
      | cons c t =>
        rw [headerTail_eq] at htail'
        obtain ⟨rfl, -⟩ := List.cons.inj htail'
        exact .inr ⟨t, hraw'⟩
    · cases t with
      | nil => exact .inl (by rw [htype', List.append_nil])
      | cons c t =>
        obtain ⟨rfl, -⟩ := List.cons.inj hrest
        rw [htype', List.count_append, List.count_cons_self] at hquotes
        omega
  have hrest : rest.count '\\' = 0 := by
    have hcount := congrArg (List.count '\\') hraw
    have hle : itemType.count '\\' ≤ raw.count '\\' := by
      rcases hsplit with rfl | ⟨t, rfl⟩
      · exact le_rfl
      · rw [List.count_append]
        exact Nat.le_add_right _ _
    rw [List.count_append, List.count_append, List.count_cons_of_ne (by decide), htail] at hcount
    omega
  rcases List.mem_cons.mp htype with heq | hmem
  · -- the first string is the type itself, so no escape made it shorter
    obtain rfl : itemType = s := Value.str.inj (Prod.mk.inj heq).2
    rcases hsplit with rfl | ⟨t, rfl⟩
    · omega
    · rw [List.count_append, List.count_cons_self] at hrawQuotes
      omega
  · -- another member would have to hold the backslashes that the first string took
    have hle := specials_le hmem
    omega

/-- A header that is read as its own type was made of a plain one. `t` is the first line of it. -/
theorem plain_of_typeOf {itemType : Text} {length : ℕ} {t : Text} {members : List (Text × Value)}
    (hbegin : ∃ q, t ++ q = headerText itemType length ∧ ('\n' ∉ itemType → q = []))
    (h : Json.parse t = some (.obj members)) (htype : typeOf members = itemType) :
    plainType itemType = true := by
  cases hnil : itemType with
  | nil => rfl
  | cons c cs =>
    rw [← hnil]
    have hmem : ("type".toList, Value.str itemType) ∈ members := by
      apply mem_of_member
      rw [typeOf] at htype
      cases hmember : member members "type".toList with
      | none =>
        rw [hmember, hnil] at htype
        cases htype
      | some v =>
        rw [hmember] at htype
        cases v with
        | str s => exact congrArg (fun s => some (Value.str s)) htype
        | null => rw [hnil] at htype; cases htype
        | bool b => rw [hnil] at htype; cases htype
        | num l => rw [hnil] at htype; cases htype
        | arr vs => rw [hnil] at htype; cases htype
        | obj ms => rw [hnil] at htype; cases htype
    obtain ⟨q, hq, hline⟩ := hbegin
    have hcount : itemType.countP Json.special ≤ itemType.count '\\' := by
      have hle := specials_le hmem
      have hspecials := Json.specials_of_parse h
      rw [Value.specials] at hspecials
      have htext : t.count '\\' ≤ (headerText itemType length).count '\\' := by
        rw [← hq, List.count_append]
        exact Nat.le_add_right _ _
      rw [(headerText_count (.inl rfl) itemType length).1] at htext
      omega
    have hslash := special_eq_slash hcount
    have hnewline : '\n' ∉ itemType := fun hmem => absurd (hslash _ hmem (by decide)) (by decide)
    rw [hline hnewline, List.append_nil] at hq
    rw [hq] at h
    have hzero := no_slash hslash h hmem
    rw [List.countP_eq_zero] at hzero
    rw [plainType, List.all_eq_true]
    intro c hc
    rw [Bool.not_eq_true', Bool.eq_false_iff]
    exact hzero c hc

/-! ## What is read of the envelope -/

theorem newline_notMem_encode {t : Text} (h : '\n' ∉ t) : newline ∉ Utf8.encode t := by
  intro hmem
  have hcount := Utf8.count_lossy (c := '\n') (by decide) (by decide) (Utf8.encode t)
  rw [Utf8.lossy_encode, List.count_eq_zero.mpr h] at hcount
  exact absurd (List.countP_eq_zero.mp hcount.symm newline hmem) (by decide)

/-- The first line of a text is where the text begins, and all of it if it is one line. -/
theorem splitLine_encode {text : Text} {rest : Bytes} {members : List (Text × Value)}
    (h : jsonObject (splitLine (Utf8.encode text ++ newline :: rest)).1 = some members) :
    ∃ t q, t ++ q = text ∧ Json.parse t = some (.obj members) ∧ ('\n' ∉ text → q = []) := by
  have hparse : ∀ line, jsonObject line = some members →
      ∃ t, Utf8.encode t = line ∧ Json.parse t = some (.obj members) := by
    intro line hline
    unfold jsonObject at hline
    split at hline
    · next members' hvalue =>
      obtain ⟨t, hstrict, hvalue⟩ := Option.bind_eq_some_iff.mp hvalue
      cases hline
      exact ⟨t, (Utf8.eq_encode_of_strict hstrict).symm, hvalue⟩
    · cases hline
  by_cases hnewline : '\n' ∈ text
  · obtain ⟨t, ht, hvalue⟩ := hparse _ h
    obtain ⟨hline, hsplit⟩ := splitLine_eq (Utf8.encode text ++ newline :: rest)
    -- the line ends no later than the text
    obtain ⟨as, has⟩ : ∃ as, Utf8.encode text = (splitLine (Utf8.encode text ++ newline :: rest)).1
        ++ as := by
      rcases hsplit with ⟨hall, -⟩ | hsplit
      · rw [← hall] at hline
        exact absurd (List.mem_append_right _ List.mem_cons_self) hline
      · rcases List.append_eq_append_iff.mp hsplit with ⟨as, hle, hrest⟩ | ⟨as, hle, -⟩
        · cases as with
          | nil => exact ⟨[], by rw [hle, List.append_nil, List.append_nil]⟩
          | cons b as =>
            obtain ⟨rfl, -⟩ := List.cons.inj hrest
            rw [hle] at hline
            exact absurd (List.mem_append_right _ List.mem_cons_self) hline
        · exact ⟨as, hle⟩
    rw [← ht] at has
    obtain ⟨q, hq, -⟩ := Utf8.exists_of_encode_append has.symm
    exact ⟨t, q, hq, hvalue, fun hno => absurd hnewline hno⟩
  · rw [splitLine_append (newline_notMem_encode hnewline)] at h
    obtain ⟨t, ht, hvalue⟩ := hparse _ h
    have htext : t = text := by
      rw [← Utf8.lossy_encode t, ht, Utf8.lossy_encode]
    exact ⟨t, [], by rw [List.append_nil, htext], hvalue, fun _ => rfl⟩

/-- The first item is read with the header of the first line. -/
theorem header_of_parseItems {total fuel count : ℕ} {rest : Bytes} {item : Item} {items : List Item}
    (h : parseItems total fuel count rest = .ok (item :: items)) :
    ∃ members, jsonObject (splitLine rest).1 = some members ∧ item.typeName = typeOf members := by
  cases fuel with
  | zero => cases h
  | succ fuel =>
    rw [parseItems] at h
    split at h
    · cases h
    · split at h
      · cases h
      · simp only at h
        split at h
        · cases h
        · next header hobject =>
          split at h
          · cases h
          · split at h
            · cases h
            · cases h
              exact ⟨header, hobject, rfl⟩

/-- An envelope made of a stored item keeps the type only if the type is plain. -/
theorem plain_of_parse {id itemType : Text} {payload : Bytes} {e' : Envelope} {item' : Item}
    (h : Envelope.parse (replayEnvelope id itemType payload).toBytes = .ok e')
    (hitems : e'.items = [item']) (htype : item'.typeName = itemType) :
    plainType itemType = true := by
  have hmembers : Json.validMembers ((replayEnvelope id itemType payload).header.filter
      fun m => m.1 ≠ "dsn".toList) = true :=
    validMembers_filter _ (by rfl)
  have hline := newline_notMem_render (v := .obj ((replayEnvelope id itemType payload).header.filter
      fun m => m.1 ≠ "dsn".toList)) hmembers
  have hbytes : (replayEnvelope id itemType payload).toBytes
      = Utf8.encode (Json.render (.obj ((replayEnvelope id itemType payload).header.filter
          fun m => m.1 ≠ "dsn".toList)))
        ++ newline :: (Utf8.encode (headerText itemType payload.length)
          ++ newline :: (payload ++ [newline])) := by
    simp [Envelope.toBytes, replayEnvelope, Envelope.itemBytes]
  have hne : (replayEnvelope id itemType payload).toBytes.isEmpty = false := by
    simp [Envelope.toBytes]
  rw [Envelope.parse, hne, if_neg (by simp), hbytes,
    splitLine_append hline] at h
  simp only [jsonObject_render hmembers] at h
  split at h
  · cases h
  · next items hparse =>
    cases h
    obtain rfl : items = [item'] := hitems
    obtain ⟨members, hobject, htypeOf⟩ := header_of_parseItems hparse
    obtain ⟨t, q, hq, hvalue, hline⟩ := splitLine_encode hobject
    refine plain_of_typeOf ⟨q, hq, fun hno => hline ?_⟩ hvalue (htypeOf.symm.trans htype)
    have hcount := (headerText_count (.inr rfl) itemType payload.length).1
    rwa [List.count_eq_zero.mpr hno, List.count_eq_zero] at hcount

/-- The envelope made of a record is read as one item, with the type and the payload of `item`. -/
def Replayed (fresh : Text) (record : LogRecord) (item : Item) : Prop :=
  ∃ project env e item', envelopeFromRecord fresh record = some (project, env) ∧
    Envelope.parse env.toBytes = .ok e ∧ e.items = [item'] ∧
    item'.typeName = item.typeName ∧ item'.payload = item.payload

section
variable {item : Item} {fresh project key : Text} {eventId : Uuid} {e : Envelope} {now : ℕ}

theorem plain_of_replayed (hkind : item.itemType ≠ .attachment)
    (h : Replayed fresh (itemToRecord eventId item project key e now) item) :
    plainType item.typeName = true := by
  obtain ⟨id, henv⟩ := envelopeFromRecord_item fresh eventId project key e now hkind
  obtain ⟨project', env, e', item', hrecord, hback, hitems, htype, -⟩ := h
  rw [henv] at hrecord
  obtain ⟨-, rfl⟩ := Prod.mk.inj (Option.some.inj hrecord)
  exact plain_of_parse hback hitems htype

/-- With a plain type only the payload is left to differ. -/
theorem replayed_iff_of_plain (hkind : item.itemType ≠ .attachment)
    (hlength : (Utf8.encode (Utf8.lossy item.payload)).length < 2 ^ 64)
    (hplain : plainType item.typeName = true) :
    Replayed fresh (itemToRecord eventId item project key e now) item ↔
      (Utf8.strict item.payload).isSome = true := by
  obtain ⟨id, henv⟩ := envelopeFromRecord_item fresh eventId project key e now hkind
  have hparse := parse_toBytes (framed_of_plain hplain hlength id)
  constructor
  · intro h
    obtain ⟨project', env, e', item', hrecord, hback, hitems, -, hpayload⟩ := h
    rw [henv] at hrecord
    obtain ⟨-, rfl⟩ := Prod.mk.inj (Option.some.inj hrecord)
    rw [hparse] at hback
    obtain rfl := Except.ok.inj hback
    obtain ⟨rfl, -⟩ := List.cons.inj hitems
    have hsame : Utf8.encode (Utf8.lossy item.payload) = item.payload := hpayload
    rw [← hsame, Utf8.strict_encode]
    rfl
  · intro h
    obtain ⟨text, htext⟩ := Option.isSome_iff_exists.mp h
    have hsame : Utf8.encode (Utf8.lossy item.payload) = item.payload := by
      rw [Utf8.eq_encode_of_strict htext, Utf8.lossy_encode]
    exact ⟨project, _, _, _, henv, hparse, rfl, rfl, hsame⟩

end

/-- An item that is no attachment is sent again as it came, whatever id, project and key it was
stored with, exactly if its payload is UTF-8 and its type is one that a JSON string holds as it
is. -/
theorem replayed_iff {item : Item} (hkind : item.itemType ≠ .attachment)
    (hlength : (Utf8.encode (Utf8.lossy item.payload)).length < 2 ^ 64)
    (eventId : Uuid) (fresh project key : Text) (e : Envelope) (now : ℕ) :
    Replayed fresh (itemToRecord eventId item project key e now) item ↔
      plainType item.typeName = true ∧ (Utf8.strict item.payload).isSome = true := by
  constructor
  · intro h
    have hplain := plain_of_replayed hkind h
    exact ⟨hplain, (replayed_iff_of_plain hkind hlength hplain).mp h⟩
  · intro h
    exact (replayed_iff_of_plain hkind hlength h.1).mpr h.2

/-- An event as an SDK sends it. -/
def plainItem : Item where
  headerRaw := Utf8.encode "\x7b\"type\":\"event\"\x7d".toList
  itemType := .event
  typeName := "event".toList
  payload := Utf8.encode "\x7b\x7d".toList
  hadLength := false

theorem replayed_plainItem :
    Replayed "0".toList (itemToRecord (Uuid.nowV7 0 (List.replicate 10 0) rfl) plainItem
        "1".toList "key".toList (wrapStorePayload "0".toList []) 0) plainItem ↔
      plainType plainItem.typeName = true ∧ (Utf8.strict plainItem.payload).isSome = true := by
  have hkind : plainItem.itemType ≠ .attachment := by decide
  have hlength : (Utf8.encode (Utf8.lossy plainItem.payload)).length < 2 ^ 64 := by decide +kernel
  exact replayed_iff hkind hlength (Uuid.nowV7 0 (List.replicate 10 0) rfl) "0".toList "1".toList
    "key".toList (wrapStorePayload "0".toList []) 0

/-- An event whose payload is no text. -/
def binaryBody : Bytes :=
  Utf8.encode "\x7b\x7d\n\x7b\"type\":\"event\",\"length\":1\x7d\n".toList ++ [0xFF, newline]

/-- An item whose type has a quote in it. -/
def quotedBody : Bytes :=
  Utf8.encode "\x7b\x7d\n\x7b\"type\":\"a\\\"b\"\x7d\n\x7b\x7d\n".toList

/-- Both bodies are accepted, and the item of neither is sent again as it came. -/
theorem not_replayed : [binaryBody, quotedBody].Forall fun body =>
    ∃ e item, Envelope.parse body = .ok e ∧ e.items = [item] ∧ item.itemType ≠ .attachment ∧
      ∀ (eventId : Uuid) (fresh project key : Text) (now : ℕ),
        ¬ Replayed fresh (itemToRecord eventId item project key e now) item := by
  have hread : ∀ (body : Bytes) (item : Item),
      ((Envelope.parse body).toOption.map Envelope.items) = some [item] →
      ∃ e, Envelope.parse body = .ok e ∧ e.items = [item] := by
    intro body item h
    cases hparse : Envelope.parse body with
    | error err =>
      rw [hparse] at h
      cases h
    | ok e =>
      rw [hparse] at h
      exact ⟨e, rfl, Option.some.inj h⟩
  let binary : Item :=
    { headerRaw := Utf8.encode "\x7b\"type\":\"event\",\"length\":1\x7d".toList
      itemType := .event, typeName := "event".toList, payload := [0xFF], hadLength := true }
  let quoted : Item :=
    { headerRaw := Utf8.encode "\x7b\"type\":\"a\\\"b\"\x7d".toList
      itemType := .other, typeName := "a\"b".toList, payload := Utf8.encode "\x7b\x7d".toList
      hadLength := false }
  have hbinary : ((Envelope.parse binaryBody).toOption.map Envelope.items) = some [binary] := by
    decide +kernel
  have hquoted : ((Envelope.parse quotedBody).toOption.map Envelope.items) = some [quoted] := by
    decide +kernel
  have hplain : plainType binary.typeName = true := by decide +kernel
  have hlength : (Utf8.encode (Utf8.lossy binary.payload)).length < 2 ^ 64 := by decide +kernel
  have hkinds : binary.itemType ≠ .attachment ∧ quoted.itemType ≠ .attachment := by decide
  have hnot : (Utf8.strict binary.payload).isSome = false ∧ plainType quoted.typeName = false := by
    decide +kernel
  obtain ⟨e, hparse, hitems⟩ := hread _ _ hbinary
  obtain ⟨e', hparse', hitems'⟩ := hread _ _ hquoted
  refine ⟨⟨e, binary, hparse, hitems, hkinds.1, ?_⟩, e', quoted, hparse', hitems', hkinds.2, ?_⟩
  · intro eventId fresh project key now h
    have := (replayed_iff_of_plain hkinds.1 hlength hplain).mp h
    rw [hnot.1] at this
    cases this
  · intro eventId fresh project key now h
    have := plain_of_replayed hkinds.2 h
    rw [hnot.2] at this
    cases this

end LogLess.Sentry
