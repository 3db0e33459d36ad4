import LogLess.Forward.Dispatch
import LogLess.Lib.JsonText
import LogLess.Ring.Context
import LogLess.S3.Serve
import LogLess.Sentry.Envelope

/-!
# Payloads of the vendors

The texts that are sent for a window of context and for a rollup are formatted by hand around the
text of log lines. They are JSON whatever the lines are, and what is read of them is what was put
in. How a time in seconds is printed is a parameter: it is a number.
-/

namespace LogLess.Forward

open Json (Value Reads Quotes ReadsMember arrayText objectText)
open Sentry (jsonObject member lengthOf typeOf newline Envelope)

/-! ## The texts -/

/-- How `nanos_to_secs_f64` is printed. -/
structure SecsText where
  write : ℕ → Text
  isNumber_write : ∀ nanos, Json.isNumber (write nanos) = true

/-- `sentry_level`. -/
def sentryLevel (severity : UInt8) : Text :=
  if severity ≤ 8 then "debug".toList
  else if severity ≤ 12 then "info".toList
  else if severity ≤ 16 then "warning".toList
  else if severity ≤ 20 then "error".toList
  else "fatal".toList

/-- `KeyTier::as_str`. -/
def tierText : Ring.KeyTier → Text
  | .trace => "trace".toList
  | .request => "request".toList
  | .thread => "thread".toList
  | .service => "service".toList

/-- What `json_string` writes for a character. -/
def jsonEscape (c : Char) : Text :=
  if c = '"' then ['\\', '"']
  else if c = '\\' then ['\\', '\\']
  else if c = '\n' then ['\\', 'n']
  else if c = '\r' then ['\\', 'r']
  else if c = '\t' then ['\\', 't']
  else if c.toNat < 0x20 then '\\' :: 'u' :: S3.hexPadded 4 c.toNat
  else [c]

def jsonString (s : Text) : Text := '"' :: (s.flatMap jsonEscape ++ ['"'])

/-- A text that stands between quotes as it is. -/
def quoted (t : Text) : Text := '"' :: (t ++ ['"'])

def optText {α : Type} (f : α → Text) : Option α → Text
  | none => "null".toList
  | some a => f a

/-- A field of an object whose name stands in the format string. -/
def field (name : String) (text : Text) : Text × Text := (name.toList, text)

section

variable (secs : SecsText)

/-- The id of the event in `sentry_envelope`. -/
def eventId (window : Ring.ContextWindow) : Text :=
  S3.hexPadded 32 (window.flowHash ^^^ window.error.timestampUnixNano)

/-- The key that Sentry groups by. -/
def fingerprint (window : Ring.ContextWindow) : Text :=
  match window.errorTemplateFingerprint with
  | some f => "logless:t:".toList ++ S3.hexPadded 16 f
  | none => "logless:flow:".toList ++ S3.hexPadded 16 window.flowHash

def breadcrumb (line : Ring.ContextLine) : Text :=
  objectText [
    field "timestamp" (secs.write line.timestampUnixNano),
    field "level" (quoted (sentryLevel line.severity)),
    field "type" (quoted "default".toList),
    field "category" (quoted "logless".toList),
    field "message" (jsonString line.body)]

def tags (window : Ring.ContextWindow) : List (Text × Text) :=
  [("logless.key_tier".toList, tierText window.keyTier),
    ("logless.flow_hash".toList, S3.hexPadded 16 window.flowHash)]
    ++ (window.service.toList.map fun service => ("service".toList, service))
    ++ (window.errorTemplateId.toList.map fun template =>
      ("logless.template_id".toList, Decimal.ofNat template))

def sentryEvent (window : Ring.ContextWindow) : Text :=
  objectText [
    field "event_id" (quoted (eventId window)),
    field "timestamp" (secs.write window.error.timestampUnixNano),
    field "platform" (quoted "other".toList),
    field "level" (quoted (sentryLevel window.error.severity)),
    field "logger" (quoted "logless".toList),
    field "fingerprint" (arrayText [quoted (fingerprint window)]),
    field "message" (objectText [field "formatted" (jsonString window.error.body)]),
    field "tags" (objectText ((tags window).map fun t => (t.1.flatMap jsonEscape, jsonString t.2))),
    field "breadcrumbs"
      (objectText [field "values" (arrayText (window.context.map (breadcrumb secs)))]),
    field "extra" (objectText [
      field "logless.context_lines" (Decimal.ofNat window.context.length),
      field "logless.collapsed" (Decimal.ofNat window.suppressed)])]

/-- The item header of `sentry_envelope`. -/
def itemHeader (length : ℕ) : Text :=
  objectText [
    field "type" (quoted "event".toList),
    field "content_type" (quoted "application/json".toList),
    field "length" (Decimal.ofNat length)]

def sentryEnvelope (window : Ring.ContextWindow) : Text :=
  let event := sentryEvent secs window
  objectText [field "event_id" (quoted (eventId window))]
    ++ '\n' :: (itemHeader (Text.len event) ++ '\n' :: event)

def splunkLine (line : Ring.ContextLine) : Text :=
  objectText [
    field "ts" (Decimal.ofNat line.timestampUnixNano),
    field "severity" (Decimal.ofNat line.severity.toNat),
    field "template_id" (optText Decimal.ofNat line.templateId),
    field "body" (jsonString line.body)]

def splunkEvent (window : Ring.ContextWindow) : Text :=
  objectText [
    field "time" (secs.write window.error.timestampUnixNano),
    field "source" (quoted "logless".toList),
    field "sourcetype" (quoted "logless:error".toList),
    field "event" (objectText [
      field "body" (jsonString window.error.body),
      field "severity" (Decimal.ofNat window.error.severity.toNat),
      field "service" (optText jsonString window.service),
      field "template_id" (optText Decimal.ofNat window.errorTemplateId),
      field "key_tier" (quoted (tierText window.keyTier)),
      field "flow_hash" (quoted (S3.hexPadded 16 window.flowHash)),
      field "collapsed" (Decimal.ofNat window.suppressed),
      field "context_lines" (Decimal.ofNat window.context.length),
      field "context" (arrayText (window.context.map splunkLine))])]

def splunkAggregate (rollup : Rollup) : Text :=
  objectText [
    field "time" (secs.write rollup.lastSeenUnixNano),
    field "source" (quoted "logless".toList),
    field "sourcetype" (quoted "logless:aggregate".toList),
    field "event" (objectText [
      field "template_id" (Decimal.ofNat rollup.templateId),
      field "template" (jsonString rollup.templateText),
      field "service" (jsonString rollup.service),
      field "count" (Decimal.ofNat rollup.count),
      field "first_seen" (secs.write rollup.firstSeenUnixNano),
      field "last_seen" (secs.write rollup.lastSeenUnixNano),
      field "example" (jsonString rollup.exampleBody)])]

end

/-! ## What the texts are read as -/

/-- An object of named fields. -/
def object (fields : List (String × Value)) : Value :=
  .obj (fields.map fun f => (f.1.toList, f.2))

section

variable (secs : SecsText)

def breadcrumbFields (line : Ring.ContextLine) : List (String × Value) :=
  [("timestamp", .num (secs.write line.timestampUnixNano)),
    ("level", .str (sentryLevel line.severity)), ("type", .str "default".toList),
    ("category", .str "logless".toList), ("message", .str line.body)]

def breadcrumbValue (line : Ring.ContextLine) : Value := object (breadcrumbFields secs line)

def extraFields (window : Ring.ContextWindow) : List (String × Value) :=
  [("logless.context_lines", Serde.natValue window.context.length),
    ("logless.collapsed", Serde.natValue window.suppressed)]

def sentryFields (window : Ring.ContextWindow) : List (String × Value) :=
  [("event_id", .str (eventId window)),
    ("timestamp", .num (secs.write window.error.timestampUnixNano)),
    ("platform", .str "other".toList), ("level", .str (sentryLevel window.error.severity)),
    ("logger", .str "logless".toList), ("fingerprint", .arr [.str (fingerprint window)]),
    ("message", object [("formatted", .str window.error.body)]),
    ("tags", .obj ((tags window).map fun t => (t.1, .str t.2))),
    ("breadcrumbs", object [("values", .arr (window.context.map (breadcrumbValue secs)))]),
    ("extra", object (extraFields window))]

def itemHeaderFields (length : ℕ) : List (String × Value) :=
  [("type", .str "event".toList), ("content_type", .str "application/json".toList),
    ("length", Serde.natValue length)]

def splunkLineFields (line : Ring.ContextLine) : List (String × Value) :=
  [("ts", Serde.natValue line.timestampUnixNano),
    ("severity", Serde.natValue line.severity.toNat),
    ("template_id", Serde.optValue Serde.natValue line.templateId), ("body", .str line.body)]

def splunkLineValue (line : Ring.ContextLine) : Value := object (splunkLineFields line)

/-- What Splunk has under `event`. -/
def splunkEventFields (window : Ring.ContextWindow) : List (String × Value) :=
  [("body", .str window.error.body), ("severity", Serde.natValue window.error.severity.toNat),
    ("service", Serde.optValue .str window.service),
    ("template_id", Serde.optValue Serde.natValue window.errorTemplateId),
    ("key_tier", .str (tierText window.keyTier)),
    ("flow_hash", .str (S3.hexPadded 16 window.flowHash)),
    ("collapsed", Serde.natValue window.suppressed),
    ("context_lines", Serde.natValue window.context.length),
    ("context", .arr (window.context.map splunkLineValue))]

def aggregateEventFields (rollup : Rollup) : List (String × Value) :=
  [("template_id", Serde.natValue rollup.templateId), ("template", .str rollup.templateText),
    ("service", .str rollup.service), ("count", Serde.natValue rollup.count),
    ("first_seen", .num (secs.write rollup.firstSeenUnixNano)),
    ("last_seen", .num (secs.write rollup.lastSeenUnixNano)),
    ("example", .str rollup.exampleBody)]

/-- What is around it. -/
def splunkFields (nanos : ℕ) (sourcetype : Text) (event : List (String × Value)) :
    List (String × Value) :=
  [("time", .num (secs.write nanos)), ("source", .str "logless".toList),
    ("sourcetype", .str sourcetype), ("event", object event)]

end

/-! ## Escapes -/

theorem hexPadded_control : ∀ n < 0x20,
    S3.hexPadded 4 n = ['0', '0', Json.hexChar (n / 16), Json.hexChar (n % 16)] := by
  decide +kernel

theorem escapes_jsonEscape : Json.Escapes jsonEscape := by
  intro c
  unfold jsonEscape
  split
  · next h => exact .inr ⟨['"'], rfl, fun r => by rw [h]; rfl⟩
  · next hquote =>
    split
    · next h => exact .inr ⟨['\\'], rfl, fun r => by rw [h]; rfl⟩
    · next hslash =>
      split
      · next h => exact .inr ⟨['n'], rfl, fun r => by rw [h]; rfl⟩
      · split
        · next h => exact .inr ⟨['r'], rfl, fun r => by rw [h]; rfl⟩
        · split
          · next h => exact .inr ⟨['t'], rfl, fun r => by rw [h]; rfl⟩
          · split
            · next h =>
              refine .inr ⟨_, rfl, fun r => ?_⟩
              have hread := Json.unescape_control h r
              rw [Char.ofNat_toNat] at hread
              rw [hexPadded_control _ h]
              exact hread
            · next h => exact .inl ⟨rfl, hquote, hslash, h⟩

theorem printable_pair {e x : Char} (he : 0x20 ≤ e.toNat) (hx : x ∈ ['\\', e]) :
    0x20 ≤ x.toNat := by
  simp only [List.mem_cons, List.not_mem_nil, or_false] at hx
  rcases hx with rfl | rfl
  · decide
  · exact he

theorem printable_jsonEscape (c : Char) : ∀ x ∈ jsonEscape c, 0x20 ≤ x.toNat := by
  have hhex : ∀ m < 16, 0x20 ≤ (Json.hexChar m).toNat := by decide
  intro x hx
  unfold jsonEscape at hx
  split_ifs at hx with h1 h2 h3 h4 h5 h6
  · exact printable_pair (by decide) hx
  · exact printable_pair (by decide) hx
  · exact printable_pair (by decide) hx
  · exact printable_pair (by decide) hx
  · exact printable_pair (by decide) hx
  · rw [hexPadded_control _ h6] at hx
    simp only [List.mem_cons, List.not_mem_nil, or_false] at hx
    rcases hx with rfl | rfl | rfl | rfl | rfl | rfl
    · decide
    · decide
    · decide
    · decide
    · exact hhex _ (by omega)
    · exact hhex _ (by omega)
  · obtain rfl := List.mem_singleton.1 hx
    omega

theorem quotes_jsonEscape (s : Text) : Quotes (s.flatMap jsonEscape) s :=
  .of_escapes escapes_jsonEscape printable_jsonEscape s

theorem reads_jsonString (s : Text) : Reads (jsonString s) (.str s) :=
  .str (quotes_jsonEscape s)

/-! ## Texts that need none -/

/-- The names in the format strings and the values between their quotes. -/
def plainTexts : List String :=
  ["event_id", "timestamp", "platform", "level", "logger", "fingerprint", "message", "formatted",
    "tags", "breadcrumbs", "values", "extra", "logless.context_lines", "logless.collapsed", "type",
    "category", "content_type", "length", "ts", "severity", "template_id", "body", "time",
    "source", "sourcetype", "event", "service", "key_tier", "flow_hash", "collapsed",
    "context_lines", "context", "template", "count", "first_seen", "last_seen", "example", "other",
    "logless", "default", "application/json", "logless:error", "logless:aggregate", "debug", "info",
    "warning", "error", "fatal", "trace", "request", "thread", "logless:t:", "logless:flow:"]

theorem plainTexts_plain :
    (plainTexts.all fun name => name.toList.all fun c => !Json.special c) = true ∧
      ("0123456789abcdef".toList.all fun c => !Json.special c) = true := by
  decide +kernel

theorem plain_name {name : String} (h : name ∈ plainTexts) :
    (name.toList.all fun c => !Json.special c) = true :=
  List.all_eq_true.1 plainTexts_plain.1 name h

theorem mem_toDigits {c : Char} (n : ℕ) (h : c ∈ Nat.toDigits 16 n) :
    c ∈ "0123456789abcdef".toList := by
  have hdigit : ∀ d < 16, d.digitChar ∈ "0123456789abcdef".toList := by decide +kernel
  induction n using Nat.strong_induction_on with
  | _ n ih =>
    rw [Nat.toDigits_eq_if (by omega)] at h
    split at h
    · next hlt =>
      obtain rfl := List.mem_singleton.1 h
      exact hdigit n hlt
    · rw [List.mem_append, List.mem_singleton] at h
      rcases h with h | rfl
      · exact ih (n / 16) (by omega) h
      · exact hdigit _ (by omega)

theorem plain_hexPadded (width n : ℕ) :
    ((S3.hexPadded width n).all fun c => !Json.special c) = true := by
  rw [List.all_eq_true]
  intro c hc
  have hplain := List.all_eq_true.1 plainTexts_plain.2
  rw [S3.hexPadded, List.mem_append] at hc
  rcases hc with hc | hc
  · rw [List.eq_of_mem_replicate hc]
    rfl
  · exact hplain c (mem_toDigits n hc)

theorem reads_quoted {t : Text} (h : (t.all fun c => !Json.special c) = true) :
    Reads (quoted t) (.str t) :=
  .str (.of_plain h)

theorem reads_name {name : String} (h : name ∈ plainTexts) :
    Reads (quoted name.toList) (.str name.toList) :=
  reads_quoted (plain_name h)

theorem reads_sentryLevel (severity : UInt8) :
    Reads (quoted (sentryLevel severity)) (.str (sentryLevel severity)) := by
  unfold sentryLevel
  split_ifs
  all_goals exact reads_name (by simp [plainTexts])

theorem reads_tierText (tier : Ring.KeyTier) :
    Reads (quoted (tierText tier)) (.str (tierText tier)) := by
  cases tier
  all_goals exact reads_name (by simp [plainTexts])

theorem reads_hexPadded (width n : ℕ) :
    Reads (quoted (S3.hexPadded width n)) (.str (S3.hexPadded width n)) :=
  reads_quoted (plain_hexPadded width n)

theorem reads_fingerprint (window : Ring.ContextWindow) :
    Reads (quoted (fingerprint window)) (.str (fingerprint window)) := by
  apply reads_quoted
  unfold fingerprint
  split
  · rw [List.all_append, plain_hexPadded, plain_name (by simp [plainTexts])]
    rfl
  · rw [List.all_append, plain_hexPadded, plain_name (by simp [plainTexts])]
    rfl

theorem reads_ofNat (n : ℕ) : Reads (Decimal.ofNat n) (Serde.natValue n) := by
  rw [Serde.natValue, Serde.ofInt_natCast]
  have hnumber := Json.isNumber_ofInt n
  rw [Serde.ofInt_natCast] at hnumber
  exact .num hnumber

theorem reads_optText {α : Type} {f : α → Text} {g : α → Value} (h : ∀ a, Reads (f a) (g a))
    (o : Option α) : Reads (optText f o) (Serde.optValue g o) := by
  cases o with
  | none => exact .null
  | some a => exact h a

/-! ## Objects -/

theorem reads_field {name : String} (hname : name ∈ plainTexts) {t : Text} {v : Value}
    (h : Reads t v) : ReadsMember (field name t) (name.toList, v) :=
  ⟨.of_plain (plain_name hname), h⟩

section

variable (secs : SecsText)

theorem reads_secs (nanos : ℕ) : Reads (secs.write nanos) (.num (secs.write nanos)) :=
  .num (secs.isNumber_write nanos)

theorem reads_breadcrumb (line : Ring.ContextLine) :
    Reads (breadcrumb secs line) (breadcrumbValue secs line) := by
  refine .obj (.cons (reads_field ?_ (reads_secs secs _)) (.cons (reads_field ?_
    (reads_sentryLevel _)) (.cons (reads_field ?_ (reads_name ?_)) (.cons (reads_field ?_
    (reads_name ?_)) (.cons (reads_field ?_ (reads_jsonString _)) .nil)))))
  all_goals simp [plainTexts]

theorem reads_map {α : Type} {f : α → Text} {g : α → Value} (h : ∀ a, Reads (f a) (g a))
    (as : List α) : Reads (arrayText (as.map f)) (.arr (as.map g)) := by
  apply Reads.arr
  induction as with
  | nil => exact .nil
  | cons a as ih => exact .cons (h a) ih

theorem reads_tags (ts : List (Text × Text)) :
    Reads (objectText (ts.map fun t => (t.1.flatMap jsonEscape, jsonString t.2)))
      (.obj (ts.map fun t => (t.1, .str t.2))) := by
  apply Reads.obj
  induction ts with
  | nil => exact .nil
  | cons t ts ih => exact .cons ⟨quotes_jsonEscape t.1, reads_jsonString t.2⟩ ih

theorem reads_sentryEvent (window : Ring.ContextWindow) :
    Reads (sentryEvent secs window) (object (sentryFields secs window)) := by
  have hmessage : Reads (objectText [field "formatted" (jsonString window.error.body)])
      (object [("formatted", .str window.error.body)]) :=
    .obj (.cons (reads_field (by simp [plainTexts]) (reads_jsonString _)) .nil)
  have hcrumbs : Reads
      (objectText [field "values" (arrayText (window.context.map (breadcrumb secs)))])
      (object [("values", .arr (window.context.map (breadcrumbValue secs)))]) :=
    .obj (.cons (reads_field (by simp [plainTexts]) (reads_map (reads_breadcrumb secs) _)) .nil)
  have hextra : Reads (objectText [
        field "logless.context_lines" (Decimal.ofNat window.context.length),
        field "logless.collapsed" (Decimal.ofNat window.suppressed)])
      (object (extraFields window)) :=
    .obj (.cons (reads_field (by simp [plainTexts]) (reads_ofNat _))
      (.cons (reads_field (by simp [plainTexts]) (reads_ofNat _)) .nil))
  refine .obj (.cons (reads_field ?_ (reads_hexPadded _ _)) (.cons (reads_field ?_
    (reads_secs secs _)) (.cons (reads_field ?_ (reads_name ?_)) (.cons (reads_field ?_
    (reads_sentryLevel _)) (.cons (reads_field ?_ (reads_name ?_)) (.cons (reads_field ?_
    (.arr (.cons (reads_fingerprint window) .nil))) (.cons (reads_field ?_ hmessage)
    (.cons (reads_field ?_ (reads_tags _)) (.cons (reads_field ?_ hcrumbs)
    (.cons (reads_field ?_ hextra) .nil))))))))))
  all_goals simp [plainTexts]

theorem reads_itemHeader (length : ℕ) :
    Reads (itemHeader length) (object (itemHeaderFields length)) := by
  refine .obj (.cons (reads_field ?_ (reads_name ?_)) (.cons (reads_field ?_ (reads_name ?_))
    (.cons (reads_field ?_ (reads_ofNat _)) .nil)))
  all_goals simp [plainTexts]

theorem reads_splunkLine (line : Ring.ContextLine) :
    Reads (splunkLine line) (splunkLineValue line) := by
  refine .obj (.cons (reads_field ?_ (reads_ofNat _)) (.cons (reads_field ?_ (reads_ofNat _))
    (.cons (reads_field ?_ (reads_optText reads_ofNat _))
    (.cons (reads_field ?_ (reads_jsonString _)) .nil))))
  all_goals simp [plainTexts]

theorem reads_splunkEvent (window : Ring.ContextWindow) :
    Reads (splunkEvent secs window) (object (splunkFields secs window.error.timestampUnixNano
      "logless:error".toList (splunkEventFields window))) := by
  refine .obj (.cons (reads_field ?_ (reads_secs secs _)) (.cons (reads_field ?_ (reads_name ?_))
    (.cons (reads_field ?_ (reads_name ?_)) (.cons (reads_field ?_ (.obj (.cons (reads_field ?_
    (reads_jsonString _)) (.cons (reads_field ?_ (reads_ofNat _)) (.cons (reads_field ?_
    (reads_optText reads_jsonString _)) (.cons (reads_field ?_ (reads_optText reads_ofNat _))
    (.cons (reads_field ?_ (reads_tierText _)) (.cons (reads_field ?_ (reads_hexPadded _ _))
    (.cons (reads_field ?_ (reads_ofNat _)) (.cons (reads_field ?_ (reads_ofNat _))
    (.cons (reads_field ?_ (reads_map reads_splunkLine _)) .nil))))))))))) .nil))))
  all_goals simp [plainTexts]

theorem reads_splunkAggregate (rollup : Rollup) :
    Reads (splunkAggregate secs rollup) (object (splunkFields secs rollup.lastSeenUnixNano
      "logless:aggregate".toList (aggregateEventFields secs rollup))) := by
  refine .obj (.cons (reads_field ?_ (reads_secs secs _)) (.cons (reads_field ?_ (reads_name ?_))
    (.cons (reads_field ?_ (reads_name ?_)) (.cons (reads_field ?_ (.obj (.cons (reads_field ?_
    (reads_ofNat _)) (.cons (reads_field ?_ (reads_jsonString _)) (.cons (reads_field ?_
    (reads_jsonString _)) (.cons (reads_field ?_ (reads_ofNat _)) (.cons (reads_field ?_
    (reads_secs secs _)) (.cons (reads_field ?_ (reads_secs secs _)) (.cons (reads_field ?_
    (reads_jsonString _)) .nil))))))))) .nil))))
  all_goals simp [plainTexts]

end

/-! ## Reading them back -/

/-- The value at a path of names, as `event["message"]["formatted"]` has it. -/
def get : Value → List String → Option Value
  | v, [] => some v
  | .obj ms, name :: path => (member ms name.toList).bind fun v => get v path
  | _, _ :: _ => none

/-- The JSON object that a payload is. -/
def readObject (payload : Frames.Bytes) : Option Value := (jsonObject payload).map .obj

theorem jsonObject_of_reads {t : Text} {ms : List (Text × Value)} (h : Reads t (.obj ms)) :
    jsonObject (Utf8.encode t) = some ms := by
  rw [jsonObject, Utf8.strict_encode, Option.bind_some, Json.parse_of_reads h]

theorem newline_notMem_of_reads {t : Text} {v : Value} (h : Reads t v) :
    newline ∉ Utf8.encode t := by
  intro hmem
  have hle := Utf8.le_of_mem_encode h.printable hmem
  revert hle
  decide

theorem member_of_mem {ms : List (Text × Value)} (hnodup : (ms.map Prod.fst).Nodup) {name : Text}
    {v : Value} (h : (name, v) ∈ ms) : member ms name = some v := by
  induction ms using List.reverseRecOn with
  | nil => cases h
  | append_singleton ms m ih =>
    obtain ⟨key, w⟩ := m
    rw [Sentry.member_concat]
    rw [List.map_append, List.map_singleton, List.nodup_append] at hnodup
    obtain ⟨hms, -, hne⟩ := hnodup
    rw [List.mem_append, List.mem_singleton] at h
    rcases h with h | h
    · rw [if_neg fun heq => hne name (List.mem_map_of_mem h) key (by simp) heq.symm, ih hms h]
    · obtain ⟨rfl, rfl⟩ := Prod.mk.inj h
      rw [if_pos rfl]

theorem member_fields {fields : List (String × Value)} (hnodup : (fields.map Prod.fst).Nodup)
    {name : String} {v : Value} (h : (name, v) ∈ fields) :
    member (fields.map fun f => (f.1.toList, f.2)) name.toList = some v := by
  apply member_of_mem
  · rw [List.map_map]
    have hnames := hnodup.map fun _ _ => String.toList_injective
    rwa [List.map_map] at hnames
  · exact List.mem_map.2 ⟨_, h, rfl⟩

theorem get_object {fields : List (String × Value)} (hnodup : (fields.map Prod.fst).Nodup)
    {name : String} {v : Value} (h : (name, v) ∈ fields) (path : List String) :
    get (object fields) (name :: path) = get v path := by
  rw [object, get, member_fields hnodup h, Option.bind_some]

theorem get_tags_service (window : Ring.ContextWindow) :
    get (.obj ((tags window).map fun t => (t.1, .str t.2))) ["service"]
      = window.service.map .str := by
  have hkeys : "logless.key_tier" ≠ "service" ∧ "logless.flow_hash" ≠ "service" ∧
      "logless.template_id" ≠ "service" := by
    decide
  have hne : ∀ {a b : String}, a ≠ b → a.toList ≠ b.toList := fun h heq =>
    h (String.toList_injective heq)
  have hfirst : ∀ v w : Value, member [("logless.key_tier".toList, v),
      ("logless.flow_hash".toList, w)] "service".toList = none := by
    intro v w
    rw [show [_, _] = [] ++ [_] ++ [_] from rfl, Sentry.member_concat, if_neg (hne hkeys.2.1),
      Sentry.member_concat, if_neg (hne hkeys.1)]
    rfl
  have hservice : ∀ v w : Value, member ([("logless.key_tier".toList, v),
      ("logless.flow_hash".toList, w)]
        ++ (window.service.toList.map fun service => ("service".toList, Value.str service)))
      "service".toList = window.service.map .str := by
    intro v w
    cases window.service with
    | none => exact hfirst v w
    | some service => exact (Sentry.member_concat _ _ _ _).trans (if_pos rfl)
  have hmember : member ((tags window).map fun t => (t.1, .str t.2)) "service".toList
      = window.service.map .str := by
    rw [tags, List.map_append, List.map_append, List.map_map, List.map_map]
    cases window.errorTemplateId with
    | none =>
      rw [Option.toList_none, List.map_nil, List.append_nil]
      exact hservice _ _
    | some template =>
      rw [Option.toList_some, List.map_singleton]
      exact (Sentry.member_concat _ _ _ _).trans ((if_neg (hne hkeys.2.2)).trans (hservice _ _))
  rw [get, hmember]
  cases window.service with
  | none => rfl
  | some service => rfl

section

variable (secs : SecsText) (window : Ring.ContextWindow)

/-- What a reader of the event finds. -/
theorem get_sentryFields :
    get (object (sentryFields secs window)) ["message", "formatted"]
        = some (.str window.error.body) ∧
      get (object (sentryFields secs window)) ["breadcrumbs", "values"]
        = some (.arr (window.context.map (breadcrumbValue secs))) ∧
      get (object (sentryFields secs window)) ["tags", "service"] = window.service.map .str ∧
      get (object (sentryFields secs window)) ["extra", "logless.collapsed"]
        = some (Serde.natValue window.suppressed) := by
  have hnodup : ((sentryFields secs window).map Prod.fst).Nodup := by simp [sentryFields]
  have hmessage : ("message", object [("formatted", .str window.error.body)])
      ∈ sentryFields secs window := by
    simp [sentryFields]
  have hcrumbs : ("breadcrumbs",
      object [("values", .arr (window.context.map (breadcrumbValue secs)))])
      ∈ sentryFields secs window := by
    simp [sentryFields]
  have htags : ("tags", .obj ((tags window).map fun t => (t.1, .str t.2)))
      ∈ sentryFields secs window := by
    simp [sentryFields]
  have hextra : ("extra", object (extraFields window)) ∈ sentryFields secs window := by
    simp [sentryFields]
  have hcollapsed : ("logless.collapsed", Serde.natValue window.suppressed)
      ∈ extraFields window := by
    simp [extraFields]
  refine ⟨?_, ?_, ?_, ?_⟩
  · rw [get_object hnodup hmessage, get_object (by simp) List.mem_cons_self, get]
  · rw [get_object hnodup hcrumbs, get_object (by simp) List.mem_cons_self, get]
  · rw [get_object hnodup htags, get_tags_service]
  · rw [get_object hnodup hextra, get_object (by simp [extraFields]) hcollapsed, get]

theorem get_breadcrumb (line : Ring.ContextLine) :
    get (breadcrumbValue secs line) ["message"] = some (.str line.body) := by
  have hmessage : ("message", .str line.body) ∈ breadcrumbFields secs line := by
    simp [breadcrumbFields]
  rw [breadcrumbValue, get_object (by simp [breadcrumbFields]) hmessage, get]

theorem get_splunkLine (line : Ring.ContextLine) :
    get (splunkLineValue line) ["body"] = some (.str line.body) := by
  have hbody : ("body", .str line.body) ∈ splunkLineFields line := by
    simp [splunkLineFields]
  rw [splunkLineValue, get_object (by simp [splunkLineFields]) hbody, get]

theorem get_splunkFields {nanos : ℕ} {sourcetype : Text} {event : List (String × Value)}
    (hnodup : (event.map Prod.fst).Nodup) {name : String} {v : Value} (h : (name, v) ∈ event) :
    get (object (splunkFields secs nanos sourcetype event)) ["event", name] = some v := by
  have hevent : ("event", object event) ∈ splunkFields secs nanos sourcetype event := by
    simp [splunkFields]
  rw [get_object (by simp [splunkFields]) hevent, get_object hnodup h, get]

/-- The event of a window as the payload of an item. -/
def eventPayload : Frames.Bytes := Utf8.encode (sentryEvent secs window)

theorem length_eventPayload : (eventPayload secs window).length = Text.len (sentryEvent secs window) :=
  Utf8.length_encode _

theorem sentryEnvelope_bytes : Utf8.encode (sentryEnvelope secs window)
    = Utf8.encode (objectText [field "event_id" (quoted (eventId window))]) ++ newline ::
      (Utf8.encode (itemHeader (Text.len (sentryEvent secs window))) ++ newline ::
        eventPayload secs window) := by
  have hnewline : ∀ t : Text, Utf8.encode ('\n' :: t) = newline :: Utf8.encode t := fun _ => rfl
  rw [sentryEnvelope, Utf8.encode_append, hnewline, Utf8.encode_append, hnewline]
  rfl

theorem itemHeader_read {length : ℕ} (h : length < 2 ^ 64) : ∃ members,
    jsonObject (Utf8.encode (itemHeader length)) = some members ∧ typeOf members = "event".toList ∧
      lengthOf members = some length := by
  have hnodup : ((itemHeaderFields length).map Prod.fst).Nodup := by simp [itemHeaderFields]
  have htype : ("type", .str "event".toList) ∈ itemHeaderFields length := by
    simp [itemHeaderFields]
  have hlength : ("length", Serde.natValue length) ∈ itemHeaderFields length := by
    simp [itemHeaderFields]
  refine ⟨_, jsonObject_of_reads (reads_itemHeader length), ?_, ?_⟩
  · rw [typeOf, member_fields hnodup htype]
    rfl
  · rw [lengthOf, member_fields hnodup hlength, Option.bind_some, Serde.readNat_natValue h]

/-- The envelope is read with the event as its only item. -/
theorem parse_sentryEnvelope (hlen : Text.len (sentryEvent secs window) < 2 ^ 64) :
    Envelope.parse (Utf8.encode (sentryEnvelope secs window))
      = .ok ⟨[("event_id".toList, .str (eventId window))],
        [⟨Utf8.encode (itemHeader (Text.len (sentryEvent secs window))), .event, "event".toList,
          eventPayload secs window, true⟩]⟩ := by
  obtain ⟨members, hobject, htype, hlength⟩ := itemHeader_read hlen
  have hevent : Sentry.ItemType.parse "event".toList = .event := by decide +kernel
  have hheader : Reads (objectText [field "event_id" (quoted (eventId window))])
      (.obj [("event_id".toList, .str (eventId window))]) :=
    .obj (.cons (reads_field (by simp [plainTexts]) (reads_hexPadded _ _)) .nil)
  have hline := newline_notMem_of_reads hheader
  have hitem := newline_notMem_of_reads (reads_itemHeader (Text.len (sentryEvent secs window)))
  obtain ⟨b, more, hfirst, hb⟩ : ∃ b more, Utf8.encode (itemHeader
      (Text.len (sentryEvent secs window))) = b :: more ∧ b ≠ newline :=
    ⟨0x7b, _, rfl, by decide⟩
  have hpayload : ∀ offset, Sentry.takePayload offset (some (Text.len (sentryEvent secs window)))
      (eventPayload secs window) = .ok (eventPayload secs window, []) := by
    intro offset
    rw [Sentry.takePayload, ← length_eventPayload, if_neg (by omega), List.take_length,
      List.drop_length, Sentry.stripNewline]
  have hitems : ∀ total fuel, Sentry.parseItems total (fuel + 2) 0
      (Utf8.encode (itemHeader (Text.len (sentryEvent secs window))) ++ newline ::
        eventPayload secs window)
      = .ok [⟨Utf8.encode (itemHeader (Text.len (sentryEvent secs window))), .event,
          "event".toList, eventPayload secs window, true⟩] := by
    intro total fuel
    have hall : (Utf8.encode (itemHeader (Text.len (sentryEvent secs window))) ++ newline ::
        eventPayload secs window).all (· == newline) = false := by
      rw [hfirst, List.cons_append, List.all_cons, beq_eq_false_iff_ne.2 hb, Bool.false_and]
    rw [Sentry.parseItems, hall, if_neg (by simp), if_neg (by decide),
      Sentry.splitLine_append hitem]
    simp only [hobject, hlength, hpayload, htype, hevent, Option.isSome_some]
    rfl
  rw [sentryEnvelope_bytes, Envelope.parse, if_neg (by simp), Sentry.splitLine_append hline]
  obtain ⟨rounds, hrounds⟩ : ∃ rounds, (Utf8.encode (itemHeader
      (Text.len (sentryEvent secs window))) ++ newline :: eventPayload secs window).length + 1
      = rounds + 2 := by
    rw [List.length_append, List.length_cons]
    exact ⟨_, by rw [← Nat.add_assoc]⟩
  simp only [jsonObject_of_reads hheader, hrounds, hitems]

/-! ## Payloads are well formed -/

/-- Whatever the lines of a window and of a rollup are: the envelope for Sentry is read with one
event, as long as it says, and the events for Splunk are objects; what is read of them is the body
of the error, the bodies of the context in their order, the service, the template and the counts. -/
theorem payloads_well_formed (rollup : Rollup)
    (hlen : Text.len (sentryEvent secs window) < 2 ^ 64) :
    (∃ item event, Envelope.parse (Utf8.encode (sentryEnvelope secs window))
        = .ok ⟨[("event_id".toList, .str (eventId window))], [item]⟩ ∧
      item.itemType = .event ∧ item.payload = Utf8.encode (sentryEvent secs window) ∧
      (jsonObject item.headerRaw).bind lengthOf = some item.payload.length ∧
      newline ∉ item.payload ∧ readObject item.payload = some event ∧
      get event ["message", "formatted"] = some (.str window.error.body) ∧
      (∃ crumbs, get event ["breadcrumbs", "values"] = some (.arr crumbs) ∧
        crumbs.map (get · ["message"]) = window.context.map fun line => some (.str line.body)) ∧
      get event ["tags", "service"] = window.service.map .str ∧
      get event ["extra", "logless.collapsed"] = some (Serde.natValue window.suppressed)) ∧
    (∃ event, readObject (Utf8.encode (splunkEvent secs window)) = some event ∧
      get event ["event", "body"] = some (.str window.error.body) ∧
      (∃ lines, get event ["event", "context"] = some (.arr lines) ∧
        lines.map (get · ["body"]) = window.context.map fun line => some (.str line.body)) ∧
      get event ["event", "service"] = some (Serde.optValue .str window.service) ∧
      get event ["event", "collapsed"] = some (Serde.natValue window.suppressed)) ∧
    ∃ event, readObject (Utf8.encode (splunkAggregate secs rollup)) = some event ∧
      get event ["event", "template"] = some (.str rollup.templateText) ∧
      get event ["event", "service"] = some (.str rollup.service) ∧
      get event ["event", "count"] = some (Serde.natValue rollup.count) ∧
      get event ["event", "example"] = some (.str rollup.exampleBody) := by
  have hobject : ∀ {t : Text} {fields : List (String × Value)}, Reads t (object fields) →
      readObject (Utf8.encode t) = some (object fields) := by
    intro t fields h
    rw [readObject, jsonObject_of_reads h]
    rfl
  refine ⟨?_, ?_, ?_⟩
  · obtain ⟨hbody, hcrumbs, hservice, hcollapsed⟩ := get_sentryFields secs window
    obtain ⟨members, hmembers, -, hlength⟩ := itemHeader_read hlen
    have hread := reads_sentryEvent secs window
    refine ⟨_, _, parse_sentryEnvelope secs window hlen, rfl, rfl, ?_,
      newline_notMem_of_reads hread, hobject hread, hbody, ⟨_, hcrumbs, ?_⟩, hservice, hcollapsed⟩
    · rw [hmembers, Option.bind_some, hlength, length_eventPayload]
    · rw [List.map_map]
      exact List.map_congr_left fun line _ => get_breadcrumb secs line
  · have hnodup : ((splunkEventFields window).map Prod.fst).Nodup := by simp [splunkEventFields]
    refine ⟨_, hobject (reads_splunkEvent secs window), ?_, ⟨window.context.map splunkLineValue, ?_,
      ?_⟩, ?_, ?_⟩
    · exact get_splunkFields secs hnodup (by simp [splunkEventFields])
    · exact get_splunkFields secs hnodup (by simp [splunkEventFields])
    · rw [List.map_map]
      exact List.map_congr_left fun line _ => get_splunkLine line
    · exact get_splunkFields secs hnodup (by simp [splunkEventFields])
    · exact get_splunkFields secs hnodup (by simp [splunkEventFields])
  · have hnodup : ((aggregateEventFields secs rollup).map Prod.fst).Nodup := by
      simp [aggregateEventFields]
    refine ⟨_, hobject (reads_splunkAggregate secs rollup), ?_, ?_, ?_, ?_⟩
    all_goals exact get_splunkFields secs hnodup (by simp [aggregateEventFields])

end

/-- Whole seconds are printed without a fraction. -/
def wholeSecs : SecsText where
  write nanos := Decimal.ofNat (nanos / 1000000000)
  isNumber_write nanos := by
    have hnumber := Json.isNumber_ofInt ((nanos / 1000000000 : ℕ) : ℤ)
    rwa [Serde.ofInt_natCast] at hnumber

/-- An error with a quote, a newline, a backslash and a bell in its body. -/
def exampleWindow : Ring.ContextWindow where
  error := ⟨1700000000000000000, 17, some 7, "said \"hi\"\n\\ and ".toList ++ [Char.ofNat 7]⟩
  context := [⟨1699999990000000000, 5, some 2, "step\n0".toList⟩]
  keyTier := .trace
  flowHash := 0xdeadbeef
  errorTemplateId := some 7
  errorTemplateFingerprint := none
  service := some "svc\"quoted".toList
  suppressed := 3

theorem payloads_well_formed_example :
    ∃ item event, Envelope.parse (Utf8.encode (sentryEnvelope wholeSecs exampleWindow))
        = .ok ⟨[("event_id".toList, .str (eventId exampleWindow))], [item]⟩ ∧
      readObject item.payload = some event ∧
      get event ["message", "formatted"] = some (.str exampleWindow.error.body) ∧
      get event ["tags", "service"] = some (.str "svc\"quoted".toList) := by
  have hlen : Text.len (sentryEvent wholeSecs exampleWindow) < 2 ^ 64 := by decide +kernel
  obtain ⟨⟨item, event, hparse, -, -, -, -, hread, hbody, -, hservice, -⟩, -, -⟩ :=
    payloads_well_formed wholeSecs exampleWindow
      ⟨"api".toList, 7, "timeout".toList, 2, 0, 0, "timeout".toList, []⟩ hlen
  exact ⟨item, event, hparse, hread, hbody, hservice⟩

end LogLess.Forward
