import LogLess.Lib.Json
import LogLess.Lib.Text

/-!
# JSON text put together by hand

A writer that formats its text rather than a value writes JSON if its parts are JSON: a string whose
characters are escaped, an array or an object of such texts with commas between them. `Reads` says
that a text is read as a value wherever it stands, and `parse_of_reads` that it is read by itself.
-/

namespace Json

/-- A text that is read as the value `v`, with nothing before it and nothing after it that is left
out. It has no control characters. -/
structure Reads (t : List Char) (v : Value) : Prop where
  head : ∃ c rest, t = c :: rest ∧ isSpace c = false ∧ c ≠ ']' ∧ c ≠ '}'
  value_append : ∀ fuel r, t.length ≤ fuel → Ends r → value fuel (t ++ r) = some (v, r)
  printable : ∀ c ∈ t, 0x20 ≤ c.toNat

/-- What may stand between the quotes of the string `s`. -/
structure Quotes (q s : List Char) : Prop where
  string_append : ∀ r, string (q ++ '"' :: r).length (q ++ '"' :: r) = some (s, r)
  printable : ∀ c ∈ q, 0x20 ≤ c.toNat

theorem Quotes.of_escapes {esc : Char → List Char} (hesc : Escapes esc)
    (hprint : ∀ c, ∀ x ∈ esc c, 0x20 ≤ x.toNat) (s : List Char) : Quotes (s.flatMap esc) s where
  string_append := string_of_escapes hesc s
  printable := by
    intro x hx
    obtain ⟨c, -, hx⟩ := List.mem_flatMap.1 hx
    exact hprint c x hx

/-- A text without quotes, backslashes and control characters needs no escapes. -/
theorem Quotes.of_plain {s : List Char} (h : (s.all fun c => !special c) = true) :
    Quotes s s := by
  have hquotes := Quotes.of_escapes escapes_escape (fun _ _ => le_of_mem_escape) s
  rwa [flatMap_escape h] at hquotes

/-! ## Texts of one part -/

theorem Reads.null : Reads ['n', 'u', 'l', 'l'] .null where
  head := ⟨'n', _, rfl, by decide, by decide, by decide⟩
  value_append := by
    intro fuel r hlen _
    obtain ⟨fuel, rfl⟩ : ∃ n, fuel = n + 1 := ⟨fuel - 1, by simp at hlen; omega⟩
    simp [value, skipSpace, isSpace]
  printable c hc := of_decide_eq_true (List.all_eq_true.1
    (show ['n', 'u', 'l', 'l'].all (fun c => decide (0x20 ≤ c.toNat)) = true by decide) c hc)

theorem Reads.num {l : List Char} (h : isNumber l = true) : Reads l (.num l) where
  head := render_head (v := .num l) h
  value_append := by
    intro fuel r hlen hr
    have hpos := List.length_pos_of_ne_nil (isNumber_ne_nil h)
    obtain ⟨fuel, rfl⟩ : ∃ n, fuel = n + 1 := ⟨fuel - 1, by omega⟩
    exact value_number h hr fuel
  printable := fun c hc => le_of_isNumChar (isNumChar_of_isNumber h c hc)

theorem Reads.str {q s : List Char} (h : Quotes q s) : Reads ('"' :: (q ++ ['"'])) (.str s) where
  head := ⟨'"', _, rfl, by decide, by decide, by decide⟩
  value_append := by
    intro fuel r hlen _
    obtain ⟨fuel, rfl⟩ : ∃ n, fuel = n + 1 := ⟨fuel - 1, by simp at hlen; omega⟩
    rw [List.cons_append, List.append_assoc, List.singleton_append, value,
      skipSpace_cons (by decide)]
    simp only [h.string_append, Option.map_some]
  printable := by
    intro c hc
    rw [List.mem_cons, List.mem_append, List.mem_singleton] at hc
    rcases hc with rfl | hc | rfl
    · decide
    · exact h.printable c hc
    · decide

/-! ## Texts of several parts -/

theorem exists_of_mem {α β : Type} {p : α → β → Prop} {as : List α} {bs : List β}
    (h : List.Forall₂ p as bs) {a : α} (ha : a ∈ as) : ∃ b, p a b := by
  induction h with
  | nil => cases ha
  | cons hab _ ih =>
    rcases List.mem_cons.1 ha with rfl | ha
    · exact ⟨_, hab⟩
    · exact ih ha

theorem ends_cons {c : Char} (h : isNumChar c = false) (r : List Char) : Ends (c :: r) := by
  intro x hx
  obtain rfl : c = x := by simpa using hx
  exact h

theorem items_intercalate {ts : List (List Char)} {vs : List Value} (h : List.Forall₂ Reads ts vs)
    (hne : ts ≠ []) {n : ℕ} (hfuel : (List.intercalate [','] ts).length < n) (r : List Char) :
    items n (List.intercalate [','] ts ++ ']' :: r) = some (vs, r) := by
  induction h generalizing n with
  | nil => exact (hne rfl).elim
  | @cons t v ts vs ht hts ih =>
    obtain ⟨fuel, rfl⟩ : ∃ m, n = m + 1 := ⟨n - 1, by omega⟩
    rw [items]
    cases hts with
    | nil =>
      rw [List.intercalate_singleton] at hfuel ⊢
      rw [ht.value_append fuel (']' :: r) (by omega) (ends_cons (by decide) r)]
      simp [skipSpace, isSpace]
    | @cons t' v' ts vs ht' hts =>
      rw [List.intercalate_cons_cons, List.length_append, List.length_append] at hfuel
      rw [List.intercalate_cons_cons, List.append_assoc, List.append_assoc, List.singleton_append,
        ht.value_append fuel (',' :: _) (by omega) (ends_cons (by decide) _)]
      have hrest := ih (by simp) (n := fuel) (by simp at hfuel; omega)
      simp only [Option.bind_eq_bind, Option.bind_some,
        skipSpace_cons (show isSpace ',' = false by decide), hrest]
      rfl

/-- The text of a member: a name in quotes and a value. -/
def memberText (m : List Char × List Char) : List Char := '"' :: (m.1 ++ '"' :: ':' :: m.2)

/-- A text of a member that is read as a member. -/
def ReadsMember (m : List Char × List Char) (member : List Char × Value) : Prop :=
  Quotes m.1 member.1 ∧ Reads m.2 member.2

theorem members_intercalate {ts : List (List Char × List Char)} {ms : List (List Char × Value)}
    (h : List.Forall₂ ReadsMember ts ms) (hne : ts ≠ []) {n : ℕ}
    (hfuel : (List.intercalate [','] (ts.map memberText)).length < n) (r : List Char) :
    members n (List.intercalate [','] (ts.map memberText) ++ '}' :: r) = some (ms, r) := by
  induction h generalizing n with
  | nil => exact (hne rfl).elim
  | @cons t m ts ms ht hts ih =>
    obtain ⟨fuel, rfl⟩ : ∃ m, n = m + 1 := ⟨n - 1, by omega⟩
    obtain ⟨hname, hvalue⟩ := ht
    have hstring := hname.string_append
    rw [members]
    cases hts with
    | nil =>
      rw [List.map_cons, List.map_nil, List.intercalate_singleton, memberText] at hfuel ⊢
      simp only [List.length_cons, List.length_append] at hfuel
      have hread := hvalue.value_append fuel ('}' :: r) (by omega) (ends_cons (by decide) r)
      simp only [List.cons_append, List.append_assoc, skipSpace_cons (show isSpace '"' = false
        by decide), hstring, Option.bind_eq_bind, Option.bind_some,
        skipSpace_cons (show isSpace ':' = false by decide), hread,
        skipSpace_cons (show isSpace '}' = false by decide)]
      rfl
    | @cons t' m' ts ms ht' hts =>
      have hrest := ih (by simp) (n := fuel)
      rw [List.map_cons, List.map_cons, List.intercalate_cons_cons, memberText] at hfuel ⊢
      simp only [List.length_cons, List.length_append, List.length_nil] at hfuel
      rw [List.map_cons] at hrest
      have hread := hvalue.value_append fuel (',' :: (List.intercalate [',']
        (memberText t' :: ts.map memberText) ++ '}' :: r)) (by omega) (ends_cons (by decide) _)
      simp only [List.cons_append, List.append_assoc, List.nil_append, skipSpace_cons
        (show isSpace '"' = false by decide), hstring, Option.bind_eq_bind, Option.bind_some,
        skipSpace_cons (show isSpace ':' = false by decide), hread,
        skipSpace_cons (show isSpace ',' = false by decide), hrest (by omega)]
      rfl

theorem printable_intercalate {ts : List (List Char)} (h : ∀ t ∈ ts, ∀ c ∈ t, 0x20 ≤ c.toNat)
    {c : Char} (hc : c ∈ List.intercalate [','] ts) : 0x20 ≤ c.toNat := by
  rcases Text.mem_intercalate hc with hc | ⟨t, ht, hc⟩
  · obtain rfl := List.mem_singleton.1 hc
    decide
  · exact h t ht c hc

/-- The text of an array. -/
def arrayText (ts : List (List Char)) : List Char := '[' :: (List.intercalate [','] ts ++ [']'])

/-- The text of an object. -/
def objectText (ms : List (List Char × List Char)) : List Char :=
  '{' :: (List.intercalate [','] (ms.map memberText) ++ ['}'])

theorem Reads.arr {ts : List (List Char)} {vs : List Value} (h : List.Forall₂ Reads ts vs) :
    Reads (arrayText ts) (.arr vs) where
  head := ⟨'[', _, rfl, by decide, by decide, by decide⟩
  value_append := by
    intro fuel r hlen _
    rw [arrayText, List.length_cons, List.length_append] at hlen
    obtain ⟨fuel, rfl⟩ : ∃ n, fuel = n + 1 := ⟨fuel - 1, by omega⟩
    rw [arrayText, List.cons_append, List.append_assoc, List.singleton_append, value,
      skipSpace_cons (by decide)]
    cases h with
    | nil => simp [skipSpace, isSpace]
    | @cons t v ts vs ht hts =>
      have hitems := items_intercalate (.cons ht hts) (by simp) (n := fuel)
        (by rw [List.length_singleton] at hlen; omega) r
      obtain ⟨c, rest, hhead, hspace, hne, -⟩ := ht.head
      obtain ⟨more, hmore⟩ : ∃ more, List.intercalate [','] (t :: ts) ++ ']' :: r = c :: more := by
        cases ts with
        | nil => exact ⟨rest ++ ']' :: r, by rw [List.intercalate_singleton, hhead]; rfl⟩
        | cons t' ts => exact ⟨_, by rw [List.intercalate_cons_cons, hhead]; rfl⟩
      rw [hmore] at hitems ⊢
      simp only [skipSpace_cons hspace]
      split
      · next heq => exact absurd (List.cons.inj heq).1 hne
      · rw [hitems]
        rfl
  printable := by
    intro c hc
    rw [arrayText, List.mem_cons, List.mem_append, List.mem_singleton] at hc
    rcases hc with rfl | hc | rfl
    · decide
    · refine printable_intercalate (fun t ht => ?_) hc
      obtain ⟨v, htv⟩ := exists_of_mem h ht
      exact htv.printable
    · decide

theorem Reads.obj {ts : List (List Char × List Char)} {ms : List (List Char × Value)}
    (h : List.Forall₂ ReadsMember ts ms) : Reads (objectText ts) (.obj ms) where
  head := ⟨'{', _, rfl, by decide, by decide, by decide⟩
  value_append := by
    intro fuel r hlen _
    rw [objectText, List.length_cons, List.length_append] at hlen
    obtain ⟨fuel, rfl⟩ : ∃ n, fuel = n + 1 := ⟨fuel - 1, by omega⟩
    rw [objectText, List.cons_append, List.append_assoc, List.singleton_append, value,
      skipSpace_cons (by decide)]
    cases h with
    | nil => simp [skipSpace, isSpace]
    | @cons t m ts ms ht hts =>
      have hmembers := members_intercalate (.cons ht hts) (by simp) (n := fuel)
        (by rw [List.length_singleton] at hlen; omega) r
      obtain ⟨more, hmore⟩ : ∃ more,
          List.intercalate [','] ((t :: ts).map memberText) ++ '}' :: r = '"' :: more := by
        cases ts with
        | nil => exact ⟨_, by rw [List.map_cons, List.map_nil, List.intercalate_singleton]; rfl⟩
        | cons t' ts =>
          exact ⟨_, by rw [List.map_cons, List.map_cons, List.intercalate_cons_cons]; rfl⟩
      rw [hmore] at hmembers ⊢
      simp only [skipSpace_cons (show isSpace '"' = false by decide)]
      split
      · next heq => exact absurd (List.cons.inj heq).1 (by decide)
      · rw [hmembers]
        rfl
  printable := by
    intro c hc
    rw [objectText, List.mem_cons, List.mem_append, List.mem_singleton] at hc
    rcases hc with rfl | hc | rfl
    · decide
    · refine printable_intercalate (fun text htext x hx => ?_) hc
      obtain ⟨t, ht, rfl⟩ := List.mem_map.1 htext
      obtain ⟨m, hname, hvalue⟩ := exists_of_mem h ht
      rw [memberText, List.mem_cons, List.mem_append, List.mem_cons, List.mem_cons] at hx
      rcases hx with rfl | hx | rfl | rfl | hx
      · decide
      · exact hname.printable x hx
      · decide
      · decide
      · exact hvalue.printable x hx
    · decide

/-- A text of a value by itself. -/
theorem parse_of_reads {t : List Char} {v : Value} (h : Reads t v) : parse t = some v := by
  have hread := h.value_append (t.length + 1) [] (by omega) (by simp [Ends])
  rw [List.append_nil] at hread
  simp [parse, hread, skipSpace]

end Json
