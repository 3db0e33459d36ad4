import LogLess.Sentry.Proxy

/-!
# Envelopes forwarded unchanged

An accepted body is cut into header lines, payloads and separating newlines without a byte left
over. The items that are kept of it come back from the bytes sent upstream and from the record of
the spool, header and payload byte for byte.
-/

namespace LogLess.Sentry

open Frames (Bytes)

/-! ## How a body is cut -/

/-- A newline between two parts, which may be missing. -/
def IsSeparator (s : Bytes) : Prop := s = [] ∨ s = [newline]

/-- The items of a body: header line and payload of each, what stands after either, and the
newlines at the end. -/
inductive Cut : Bytes → List Item → Prop
  | done {rest : Bytes} : (∀ b ∈ rest, b = newline) → Cut rest []
  | item (item : Item) {s t rest : Bytes} {items : List Item} : IsSeparator s → IsSeparator t →
    Cut rest items → Cut (item.headerRaw ++ s ++ item.payload ++ t ++ rest) (item :: items)

theorem splitLine_cut (input : Bytes) :
    ∃ s, IsSeparator s ∧ input = (splitLine input).1 ++ s ++ (splitLine input).2 := by
  rcases (splitLine_eq input).2 with ⟨hall, hrest⟩ | hsplit
  · refine ⟨[], .inl rfl, ?_⟩
    rw [hrest, List.append_nil, List.append_nil]
    exact hall
  · refine ⟨[newline], .inr rfl, ?_⟩
    rw [List.append_assoc]
    exact hsplit

theorem stripNewline_cut (input : Bytes) :
    ∃ s, IsSeparator s ∧ input = s ++ stripNewline input := by
  cases input with
  | nil => exact ⟨[], .inl rfl, rfl⟩
  | cons b bs =>
    by_cases hb : b = newline
    · refine ⟨[newline], .inr rfl, ?_⟩
      rw [stripNewline, if_pos hb, hb]
      rfl
    · refine ⟨[], .inl rfl, ?_⟩
      rw [stripNewline, if_neg hb]
      rfl

theorem takePayload_cut {offset : ℕ} {declared : Option ℕ} {afterHeader payload remainder : Bytes}
    (h : takePayload offset declared afterHeader = .ok (payload, remainder)) :
    ∃ s, IsSeparator s ∧ afterHeader = payload ++ s ++ remainder := by
  cases declared with
  | none =>
    rw [takePayload, Except.ok.injEq] at h
    have hcut := splitLine_cut afterHeader
    rw [h] at hcut
    exact hcut
  | some n =>
    rw [takePayload] at h
    split at h
    · cases h
    · rw [Except.ok.injEq, Prod.mk.injEq] at h
      obtain ⟨rfl, rfl⟩ := h
      obtain ⟨s, hs, hdrop⟩ := stripNewline_cut (afterHeader.drop n)
      refine ⟨s, hs, ?_⟩
      rw [List.append_assoc, ← hdrop, List.take_append_drop]

/-- An item takes at least one byte: a header line that is read is not empty. -/
theorem remainder_lt {offset : ℕ} {declared : Option ℕ} {rest payload remainder : Bytes}
    {header : List (Text × Json.Value)} (hobject : jsonObject (splitLine rest).1 = some header)
    (h : takePayload offset declared (splitLine rest).2 = .ok (payload, remainder)) :
    remainder.length < rest.length := by
  have hline : (splitLine rest).1 ≠ [] := by
    intro hnil
    rw [hnil, jsonObject_nil] at hobject
    cases hobject
  have hpos := List.length_pos_of_ne_nil hline
  obtain ⟨s, -, hs⟩ := splitLine_cut rest
  obtain ⟨t, -, ht⟩ := takePayload_cut h
  have hrest : rest.length
      = (splitLine rest).1.length + s.length + (payload.length + t.length + remainder.length) := by
    rw [← List.length_append, ← List.length_append, ← List.length_append, ← ht,
      ← List.length_append, ← hs]
  omega

/-- The loop ends by itself: rounds beyond one for each byte change nothing. -/
theorem parseItems_rounds (total : ℕ) {f g count : ℕ} {rest : Bytes} (hf : rest.length < f)
    (hg : rest.length < g) : parseItems total f count rest = parseItems total g count rest := by
  induction f generalizing g count rest with
  | zero => omega
  | succ f ih =>
    cases g with
    | zero => omega
    | succ g =>
      rw [parseItems, parseItems]
      cases hobject : jsonObject (splitLine rest).1 with
      | none => simp only [hobject]
      | some header =>
        cases hpayload : takePayload (total - rest.length) (lengthOf header) (splitLine rest).2 with
        | error e => simp only [hobject, hpayload]
        | ok taken =>
          have hlt : taken.2.length < rest.length := remainder_lt hobject hpayload
          have hrest : parseItems total f (count + 1) taken.2
              = parseItems total g (count + 1) taken.2 := ih (by omega) (by omega)
          simp only [hobject, hpayload, hrest]

theorem cut_of_parseItems {total fuel count : ℕ} {rest : Bytes} {items : List Item}
    (hfuel : rest.length < fuel) (h : parseItems total fuel count rest = .ok items) :
    Cut rest items := by
  induction fuel generalizing count rest items with
  | zero => omega
  | succ fuel ih =>
    rw [parseItems] at h
    split at h
    · next hall =>
      cases h
      exact .done fun b hb => eq_of_beq (List.all_eq_true.mp hall b hb)
    · split at h
      · cases h
      · simp only at h
        split at h
        · cases h
        · next header hobject =>
          split at h
          · cases h
          · next payload remainder hpayload =>
            split at h
            · cases h
            · next items' hrest =>
              cases h
              have hlt := remainder_lt hobject hpayload
              have hcut := ih (by omega) hrest
              obtain ⟨s, hs, hline⟩ := splitLine_cut rest
              obtain ⟨t, ht, hafter⟩ := takePayload_cut hpayload
              have hrest : rest = (splitLine rest).1 ++ s ++ payload ++ t ++ remainder := by
                rw [List.append_assoc _ payload, List.append_assoc _ (payload ++ t), ← hafter]
                exact hline
              have hitem : Cut ((splitLine rest).1 ++ s ++ payload ++ t ++ remainder)
                  (⟨(splitLine rest).1, .parse (typeOf header), typeOf header, payload,
                    (lengthOf header).isSome⟩ :: items') :=
                Cut.item ⟨_, _, _, _, _⟩ hs ht hcut
              rw [← hrest] at hitem
              exact hitem

/-- The header line of an accepted body, its separator, and the items. -/
theorem cut_of_parse {body : Bytes} {e : Envelope} (h : Envelope.parse body = .ok e) :
    ∃ line s rest, jsonObject line = some e.header ∧ newline ∉ line ∧ IsSeparator s ∧
      body = line ++ s ++ rest ∧ Cut rest e.items := by
  rw [Envelope.parse] at h
  split at h
  · cases h
  · simp only at h
    split at h
    · cases h
    · next header hheader =>
      split at h
      · cases h
      · next items hitems =>
        cases h
        obtain ⟨s, hs, hline⟩ := splitLine_cut body
        exact ⟨(splitLine body).1, s, (splitLine body).2, hheader, (splitLine_eq body).1, hs, hline,
          cut_of_parseItems (Nat.lt_succ_self _) hitems⟩

/-! ## What is sent -/

/-- `e` with some of its items: `retain` asks a closure, which may have a state of its own. -/
def Envelope.kept (e : Envelope) (items : List Item) : Envelope := { e with items }

/-- The envelope as upstream reads it: without the SDK's DSN. -/
def Envelope.sent (e : Envelope) : Envelope :=
  { e with header := e.header.filter fun m => m.1 ≠ "dsn".toList }

theorem Envelope.Framed.kept {e : Envelope} (h : e.Framed) {items : List Item}
    (hitems : items.Sublist e.items) : (e.kept items).Framed where
  items := fun item hitem => h.items item (hitems.subset hitem)
  count := hitems.length_le.trans h.count
  header := h.header

end LogLess.Sentry
