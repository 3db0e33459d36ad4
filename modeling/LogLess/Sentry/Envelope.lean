import LogLess.Lib.Frames
import LogLess.Lib.Utf8
import LogLess.Serde

/-!
# Sentry envelopes

An envelope is a line with a JSON header, then for each item a line with a JSON header and
a payload, which has the length the header declares or ends with the line. Item headers and
payloads are carried as bytes, so `parse` gives back the items that `toBytes` wrote.
-/

namespace LogLess.Sentry

open Frames (Bytes)
open Json (Value)

def newline : UInt8 := 10

inductive ItemType where
  | event
  | transaction
  | session
  | sessions
  | attachment
  | clientReport
  | checkIn
  | profile
  | replayEvent
  | replayRecording
  | log
  | other
deriving DecidableEq

namespace ItemType

def parse (raw : Text) : ItemType :=
  if raw = "event".toList then event
  else if raw = "transaction".toList then transaction
  else if raw = "session".toList then session
  else if raw = "sessions".toList then sessions
  else if raw = "attachment".toList then attachment
  else if raw = "client_report".toList then clientReport
  else if raw = "check_in".toList then checkIn
  else if raw = "profile".toList then profile
  else if raw = "replay_event".toList then replayEvent
  else if raw = "replay_recording".toList then replayRecording
  else if raw = "log".toList then log
  else other

/-- The name of the category in `X-Sentry-Rate-Limits`. -/
def rateLimitCategory : ItemType → Text
  | event => "error".toList
  | transaction => "transaction".toList
  | session => "session".toList
  | sessions => "session".toList
  | attachment => "attachment".toList
  | profile => "profile".toList
  | replayEvent => "replay".toList
  | replayRecording => "replay".toList
  | log => "log_item".toList
  | checkIn => "monitor".toList
  | clientReport => "default".toList
  | other => "default".toList

end ItemType

structure Item where
  /-- The item header exactly as it arrived. -/
  headerRaw : Bytes
  itemType : ItemType
  typeName : Text
  payload : Bytes
  hadLength : Bool
deriving DecidableEq

structure Envelope where
  header : List (Text × Value)
  items : List Item

inductive EnvelopeError where
  | empty
  | badHeader
  | badItemHeader (offset : ℕ)
  | truncated (offset declared available : ℕ)
  | tooManyItems (limit : ℕ)
deriving DecidableEq

def maxItems : ℕ := 1000

/-! ## The codec -/

/-- The line up to the first newline, and what follows the newline. -/
def splitLine : Bytes → Bytes × Bytes
  | [] => ([], [])
  | b :: bs =>
    if b = newline then ([], bs)
    else
      let (line, rest) := splitLine bs
      (b :: line, rest)

/-- The members of a JSON object, in the order they came in. -/
def jsonObject (bytes : Bytes) : Option (List (Text × Value)) :=
  match (Utf8.strict bytes).bind Json.parse with
  | some (.obj members) => some members
  | _ => none

/-- `Map::get`: of two members of one name the later one counts. -/
def member (members : List (Text × Value)) (name : Text) : Option Value :=
  (members.reverse.find? fun m => m.1 = name).map Prod.snd

/-- The last member, or one before it. -/
theorem member_concat (members : List (Text × Value)) (key name : Text) (v : Value) :
    member (members ++ [(key, v)]) name = if key = name then some v else member members name := by
  rw [member, List.reverse_concat, List.find?_cons]
  by_cases h : key = name <;> simp [h, member]

def typeOf (header : List (Text × Value)) : Text :=
  ((member header "type".toList).bind Serde.readStr).getD []

/-- The declared length, if it is a `u64`. -/
def lengthOf (header : List (Text × Value)) : Option ℕ :=
  (member header "length".toList).bind (Serde.readNat (2 ^ 64))

/-- `strip_prefix` of one newline. -/
def stripNewline : Bytes → Bytes
  | [] => []
  | b :: bs => if b = newline then bs else b :: bs

/-- The payload of an item and what follows it. -/
def takePayload (offset : ℕ) (declared : Option ℕ) (afterHeader : Bytes) :
    Except EnvelopeError (Bytes × Bytes) :=
  match declared with
  | some length =>
    if afterHeader.length < length then
      .error (.truncated offset length afterHeader.length)
    else .ok (afterHeader.take length, stripNewline (afterHeader.drop length))
  | none => .ok (splitLine afterHeader)

/-- The loop over the items of a body of `total` bytes, `count` of them read before. An item
takes at least one byte, so the loop runs at most once for each byte. -/
def parseItems (total : ℕ) : ℕ → ℕ → Bytes → Except EnvelopeError (List Item)
  | 0, _, _ => .ok []
  | fuel + 1, count, rest =>
    if rest.all (· == newline) then .ok []
    else if maxItems ≤ count then .error (.tooManyItems maxItems)
    else
      let offset := total - rest.length
      let (line, afterHeader) := splitLine rest
      match jsonObject line with
      | none => .error (.badItemHeader offset)
      | some header =>
        match takePayload offset (lengthOf header) afterHeader with
        | .error e => .error e
        | .ok (payload, remainder) =>
          match parseItems total fuel (count + 1) remainder with
          | .error e => .error e
          | .ok items =>
            .ok (⟨line, .parse (typeOf header), typeOf header, payload,
              (lengthOf header).isSome⟩ :: items)

namespace Envelope

def parse (body : Bytes) : Except EnvelopeError Envelope :=
  if body.isEmpty then .error .empty
  else
    let (headerLine, rest) := splitLine body
    match jsonObject headerLine with
    | none => .error .badHeader
    | some header =>
      match parseItems body.length (rest.length + 1) 0 rest with
      | .error e => .error e
      | .ok items => .ok ⟨header, items⟩

def eventId (e : Envelope) : Option Text :=
  (member e.header "event_id".toList).bind Serde.readStr

def itemBytes (item : Item) : Bytes :=
  item.headerRaw ++ newline :: (item.payload ++ [newline])

/-- What goes upstream: the header without the SDK's own DSN, and the items as they came. -/
def toBytes (e : Envelope) : Bytes :=
  Utf8.encode (Json.render (.obj (e.header.filter fun m => m.1 ≠ "dsn".toList)))
    ++ newline :: e.items.flatMap itemBytes

def retainItems (e : Envelope) (keep : Item → Bool) : Envelope :=
  { e with items := e.items.filter keep }

def isEmpty (e : Envelope) : Bool := e.items.isEmpty

end Envelope

/-- `wrap_store_payload`: the body of the legacy endpoint as the one item of an envelope.
`fresh` is the id made when the body has none. -/
def wrapStorePayload (fresh : Text) (body : Bytes) : Envelope where
  header :=
    [("event_id".toList, .str (((jsonObject body).bind fun members =>
      (member members "event_id".toList).bind Serde.readStr).getD fresh))]
  items :=
    [{ headerRaw := Utf8.encode ("\x7b\"type\":\"event\",\"length\":".toList
        ++ Decimal.ofNat body.length ++ ",\"content_type\":\"application/json\"\x7d".toList)
       itemType := .event
       typeName := "event".toList
       payload := body
       hadLength := true }]

/-! ## Reading back what was written -/

/-- An item that a line of header and a payload stand for. -/
structure Item.Framed (item : Item) : Prop where
  line : newline ∉ item.headerRaw
  header : ∃ members, jsonObject item.headerRaw = some members ∧ item.typeName = typeOf members ∧
    item.itemType = .parse item.typeName ∧ item.hadLength = (lengthOf members).isSome ∧
    ((lengthOf members).all fun n => n = item.payload.length) = true ∧
    (lengthOf members = none → newline ∉ item.payload)

structure Envelope.Framed (e : Envelope) : Prop where
  items : ∀ item ∈ e.items, item.Framed
  count : e.items.length ≤ maxItems
  header : Json.validMembers e.header = true

theorem splitLine_eq (input : Bytes) : newline ∉ (splitLine input).1 ∧
    (input = (splitLine input).1 ∧ (splitLine input).2 = [] ∨
      input = (splitLine input).1 ++ newline :: (splitLine input).2) := by
  induction input with
  | nil => exact ⟨by simp [splitLine], .inl ⟨rfl, rfl⟩⟩
  | cons b bs ih =>
    rw [splitLine]
    split
    · next hb => exact ⟨by simp, .inr (by rw [hb]; rfl)⟩
    · next hb =>
      obtain ⟨hline, hsplit⟩ := ih
      refine ⟨?_, ?_⟩
      · rw [List.mem_cons]
        exact fun h => h.elim (fun h => hb h.symm) hline
      · rcases hsplit with ⟨hall, hrest⟩ | hsplit
        · exact .inl ⟨congrArg (b :: ·) hall, hrest⟩
        · exact .inr (congrArg (b :: ·) hsplit)

theorem splitLine_append {line : Bytes} (h : newline ∉ line) (rest : Bytes) :
    splitLine (line ++ newline :: rest) = (line, rest) := by
  induction line with
  | nil => simp [splitLine]
  | cons b bs ih =>
    rw [List.mem_cons, not_or] at h
    rw [List.cons_append, splitLine, if_neg (Ne.symm h.1), ih h.2]

theorem jsonObject_nil : jsonObject [] = none := by decide

/-- An item written is not taken for the newlines at the end of a body. -/
theorem Item.Framed.not_all {item : Item} (h : item.Framed) (rest : Bytes) :
    (Envelope.itemBytes item ++ rest).all (· == newline) = false := by
  obtain ⟨members, hobject, -⟩ := h.header
  cases hraw : item.headerRaw with
  | nil =>
    rw [hraw, jsonObject_nil] at hobject
    cases hobject
  | cons b bs =>
    have hb : b ≠ newline := by
      rintro rfl
      exact h.line (hraw ▸ List.mem_cons_self)
    rw [Envelope.itemBytes, hraw, List.cons_append, List.cons_append, List.all_cons,
      beq_eq_false_iff_ne.mpr hb, Bool.false_and]

theorem takePayload_append {declared : Option ℕ} {payload : Bytes}
    (hlength : (declared.all fun n => n = payload.length) = true)
    (hline : declared = none → newline ∉ payload) (offset : ℕ) (rest : Bytes) :
    takePayload offset declared (payload ++ newline :: rest) = .ok (payload, rest) := by
  cases declared with
  | none => exact congrArg Except.ok (splitLine_append (hline rfl) rest)
  | some n =>
    have hn : n = payload.length := by simpa using hlength
    rw [takePayload, if_neg (by simp [hn]), hn, List.take_left, List.drop_left, stripNewline,
      if_pos rfl]

theorem parseItems_flatMap {items : List Item} (hitems : ∀ item ∈ items, item.Framed)
    (total : ℕ) {fuel count : ℕ} (hfuel : items.length < fuel)
    (hcount : count + items.length ≤ maxItems) :
    parseItems total fuel count (items.flatMap Envelope.itemBytes) = .ok items := by
  induction items generalizing fuel count with
  | nil =>
    cases fuel with
    | zero => omega
    | succ fuel => simp [parseItems]
  | cons item items ih =>
    cases fuel with
    | zero => omega
    | succ fuel =>
      have hitem := hitems item List.mem_cons_self
      obtain ⟨members, hobject, htype, hkind, hhad, hlength, hpayload⟩ := hitem.header
      rw [List.length_cons] at hfuel hcount
      have hrest : parseItems total fuel (count + 1) (items.flatMap Envelope.itemBytes)
          = .ok items :=
        ih (fun i hi => hitems i (List.mem_cons_of_mem item hi)) (by omega) (by omega)
      have hbytes : Envelope.itemBytes item ++ items.flatMap Envelope.itemBytes
          = item.headerRaw ++ newline ::
            (item.payload ++ newline :: items.flatMap Envelope.itemBytes) := by
        simp [Envelope.itemBytes]
      rw [List.flatMap_cons, parseItems, hitem.not_all, if_neg (by simp), if_neg (by omega), hbytes,
        splitLine_append hitem.line]
      simp only [hobject, takePayload_append hlength hpayload, hrest]
      rw [← htype, ← hkind, ← hhad]

theorem length_le_flatMap (items : List Item) :
    items.length ≤ (items.flatMap Envelope.itemBytes).length := by
  induction items with
  | nil => exact le_rfl
  | cons item items ih =>
    rw [List.flatMap_cons, List.length_append, List.length_cons, Envelope.itemBytes]
    simp only [List.length_append, List.length_cons]
    omega

theorem newline_notMem_render {v : Value} (h : v.valid = true) :
    newline ∉ Utf8.encode (Json.render v) := by
  intro hmem
  have hle := Utf8.le_of_mem_encode (fun c hc => Json.le_of_mem_render v h hc) hmem
  revert hle
  decide

theorem jsonObject_render {members : List (Text × Value)} (h : Json.validMembers members = true) :
    jsonObject (Utf8.encode (Json.render (.obj members))) = some members := by
  have hvalid : (Value.obj members).valid = true := h
  rw [jsonObject, Utf8.strict_encode, Option.bind_some, Json.parse_render hvalid]

theorem validMembers_filter {members : List (Text × Value)} (p : Text × Value → Bool)
    (h : Json.validMembers members = true) : Json.validMembers (members.filter p) = true := by
  induction members with
  | nil => rfl
  | cons m members ih =>
    rw [Json.validMembers, Bool.and_eq_true] at h
    rw [List.filter_cons]
    split
    · rw [Json.validMembers, h.1, ih h.2]
      rfl
    · exact ih h.2

/-- What is read of the bytes sent are the items that were to be sent. -/
theorem parse_toBytes {e : Envelope} (h : e.Framed) :
    Envelope.parse e.toBytes
      = .ok ⟨e.header.filter fun m => m.1 ≠ "dsn".toList, e.items⟩ := by
  have hmembers := validMembers_filter (fun m => m.1 ≠ "dsn".toList) h.header
  have hline := newline_notMem_render (v := .obj _) hmembers
  have hitems : ∀ total, parseItems total ((e.items.flatMap Envelope.itemBytes).length + 1) 0
      (e.items.flatMap Envelope.itemBytes) = .ok e.items := by
    intro total
    have hle := length_le_flatMap e.items
    exact parseItems_flatMap h.items total (by omega) (by rw [Nat.zero_add]; exact h.count)
  have hne : e.toBytes.isEmpty = false := by simp [Envelope.toBytes]
  rw [Envelope.parse, hne, if_neg (by simp), Envelope.toBytes,
    splitLine_append hline]
  simp only [jsonObject_render hmembers, hitems]

/-! ### What is read can be written -/

theorem takePayload_eq {offset : ℕ} {declared : Option ℕ} {afterHeader payload remainder : Bytes}
    (h : takePayload offset declared afterHeader = .ok (payload, remainder)) :
    (declared.all fun n => n = payload.length) = true ∧
      (declared = none → newline ∉ payload) := by
  cases declared with
  | none =>
    have hline := (splitLine_eq afterHeader).1
    rw [takePayload, Except.ok.injEq] at h
    rw [h] at hline
    exact ⟨rfl, fun _ => hline⟩
  | some n =>
    rw [takePayload] at h
    split at h
    · cases h
    · next hlen =>
      rw [Except.ok.injEq, Prod.mk.injEq] at h
      refine ⟨?_, fun hnone => by cases hnone⟩
      rw [← h.1]
      simp only [Option.all_some, List.length_take, decide_eq_true_eq]
      omega

theorem framed_of_parseItems {total fuel count : ℕ} {rest : Bytes} {items : List Item}
    (h : parseItems total fuel count rest = .ok items) (hcount : count ≤ maxItems) :
    (∀ item ∈ items, item.Framed) ∧ count + items.length ≤ maxItems := by
  induction fuel generalizing count rest items with
  | zero =>
    cases h
    exact ⟨by simp, hcount⟩
  | succ fuel ih =>
    rw [parseItems] at h
    split at h
    · cases h
      exact ⟨by simp, hcount⟩
    · split at h
      · cases h
      · next hlt =>
        simp only at h
        split at h
        · cases h
        · next header hobject =>
          split at h
          · cases h
          · next payload remainder hpayload =>
            split at h
            · cases h
            · next items' hrest =>
              cases h
              obtain ⟨hframed, hlen⟩ := ih hrest (by omega)
              obtain ⟨hlength, hline⟩ := takePayload_eq hpayload
              have hitem : Item.Framed ⟨(splitLine rest).1, .parse (typeOf header),
                  typeOf header, payload, (lengthOf header).isSome⟩ :=
                ⟨(splitLine_eq rest).1, header, hobject, rfl, rfl, rfl, hlength, hline⟩
              refine ⟨?_, ?_⟩
              · intro item hmem
                rcases List.mem_cons.mp hmem with rfl | hmem
                · exact hitem
                · exact hframed item hmem
              · rw [List.length_cons]
                omega

theorem validMembers_of_jsonObject {bytes : Bytes} {members : List (Text × Value)}
    (h : jsonObject bytes = some members) : Json.validMembers members = true := by
  unfold jsonObject at h
  split at h
  · next members' hparse =>
    obtain ⟨text, -, hvalue⟩ := Option.bind_eq_some_iff.mp hparse
    cases h
    exact Json.valid_of_parse hvalue
  · cases h

theorem framed_of_parse {body : Bytes} {e : Envelope} (h : Envelope.parse body = .ok e) :
    e.Framed := by
  rw [Envelope.parse] at h
  split at h
  · cases h
  · simp only at h
    split at h
    · cases h
    · next header hheader =>
      split at h
      · cases h
      · next items hitems =>
        cases h
        obtain ⟨hframed, hlen⟩ := framed_of_parseItems hitems (Nat.zero_le _)
        exact ⟨hframed, by rwa [Nat.zero_add] at hlen, validMembers_of_jsonObject hheader⟩

theorem framed_wrapStorePayload (fresh : Text) {body : Bytes} (h : body.length < 2 ^ 64) :
    (wrapStorePayload fresh body).Framed := by
  let members : List (Text × Value) :=
    [("type".toList, .str "event".toList), ("length".toList, Serde.natValue body.length),
      ("content_type".toList, .str "application/json".toList)]
  have hvalid : Json.validMembers members = true := by
    simp [members, Json.validMembers, Json.Value.valid, Serde.valid_natValue]
  have hraw : "\x7b\"type\":\"event\",\"length\":".toList ++ Decimal.ofNat body.length
      ++ ",\"content_type\":\"application/json\"\x7d".toList = Json.render (.obj members) := by
    have hfirst : "\x7b\"type\":\"event\",\"length\":".toList
        = '{' :: (Json.quote "type".toList ++ ':' :: (Json.quote "event".toList
          ++ ',' :: (Json.quote "length".toList ++ [':']))) := by decide +kernel
    have hlast : ",\"content_type\":\"application/json\"\x7d".toList
        = ',' :: (Json.quote "content_type".toList
          ++ ':' :: (Json.quote "application/json".toList ++ ['}'])) := by decide +kernel
    rw [hfirst, hlast]
    simp [members, Json.render, Json.renderMembers, Serde.natValue, Serde.ofInt_natCast]
  have hobject := jsonObject_render hvalid
  rw [← hraw] at hobject
  have hkind : "content_type".toList ≠ "type".toList ∧ "length".toList ≠ "type".toList ∧
      "content_type".toList ≠ "length".toList := by decide +kernel
  have hlength : lengthOf members = some body.length := by
    have hmember : member members "length".toList = some (Serde.natValue body.length) := by
      show member ([_] ++ [_] ++ [_]) _ = _
      rw [member_concat, if_neg hkind.2.2, member_concat, if_pos rfl]
    rw [lengthOf, hmember, Option.bind_some, Serde.readNat_natValue h]
  have htype : typeOf members = "event".toList := by
    have hmember : member members "type".toList = some (.str "event".toList) := by
      show member ([] ++ [_] ++ [_] ++ [_]) _ = _
      rw [member_concat, if_neg hkind.1, member_concat, if_neg hkind.2.1, member_concat,
        if_pos rfl]
    rw [typeOf, hmember]
    rfl
  have hevent : ItemType.event = .parse "event".toList := by decide +kernel
  refine ⟨?_, (by decide : 1 ≤ maxItems), rfl⟩
  intro item hitem
  obtain rfl := List.mem_singleton.mp hitem
  refine ⟨?_, members, hobject, htype.symm, hevent, ?_, ?_, ?_⟩
  · rw [hraw]
    exact newline_notMem_render hvalid
  · rw [hlength]
    rfl
  · rw [hlength]
    simp
  · rw [hlength]
    exact fun hnone => by cases hnone

theorem Envelope.Framed.retainItems {e : Envelope} (h : e.Framed) (keep : Item → Bool) :
    (e.retainItems keep).Framed where
  items := fun item hitem => h.items item (List.mem_of_mem_filter hitem)
  count := (List.length_filter_le _ _).trans h.count
  header := h.header

end LogLess.Sentry
