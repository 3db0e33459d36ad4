import LogLess.Lib.Json
import LogLess.Lib.Text
import LogLess.Lib.Utf8

/-!
# A log of lines

A file with one line of text for each entry, which is appended to or rewritten whole. A reader skips
every line that is no entry, so a line that a crash tore does no harm where nothing follows it on its
line.

`Holds.append`, `Holds.torn` and `Holds.rewrite`: the reader finds the entries whose lines landed,
in order, if every append begins a line and what it leaves is text.
-/

namespace LineLog

structure Codec (ε : Type) where
  encode : ε → List Char
  decode : List Char → Option ε

variable {ε : Type} (c : Codec ε)

/-- An entry that is read back from its line, and from no beginning of it. -/
structure Codec.Writes (e : ε) : Prop where
  newline : '\n' ∉ c.encode e
  cr : (c.encode e).getLast? ≠ some '\r'
  ne_nil : c.encode e ≠ []
  decode_encode : c.decode (c.encode e) = some e
  torn : ∀ p q, p ++ q = c.encode e → q ≠ [] → c.decode p = none

/-- The bytes of an entry. -/
def Codec.line (e : ε) : List UInt8 := Utf8.encode (c.encode e ++ ['\n'])

/-- What a reader finds, if the log is text. -/
def Codec.entries (log : List UInt8) : Option (List ε) :=
  (Utf8.strict log).map fun text => (Text.bufLines text).filterMap c.decode

/-- The log is text, and what is appended to it begins a line. -/
def beginsLine (log : List UInt8) : Bool := (Utf8.strict log).any Text.endsLine

/-- This much of a line can be left: nothing, or text on a line of its own. -/
def Codec.cutFits (log : List UInt8) (e : ε) (k : ℕ) : Bool :=
  k == 0 || (beginsLine log && (Utf8.strict (log ++ (c.line e).take k)).isSome)

/-- An entry with its whole line in the log. -/
structure Landed (ε : Type) where
  entry : ε
  /-- The append returned, and did not fail. -/
  returned : Bool
deriving DecidableEq

/-- What a reader may find of an append that left this much: its newline may be missing. -/
def Codec.remnant (e : ε) (k : ℕ) : List (Landed ε) :=
  if (c.line e).length ≤ k + 1 then [⟨e, false⟩] else []

/-- The reader finds what landed, and every entry of it can be written again. -/
structure Holds (log : List UInt8) (landed : List (Landed ε)) : Prop where
  entries : c.entries log = some (landed.map Landed.entry)
  writes : ∀ x ∈ landed, c.Writes x.entry

variable {c}

theorem entries_append {log : List UInt8} {es : List ε} (hlog : c.entries log = some es) {e : ε}
    (he : c.Writes e) (hline : beginsLine log = true) :
    c.entries (log ++ c.line e) = some (es ++ [e]) := by
  obtain ⟨text, htext, hends⟩ := (Option.any_eq_true _ _).mp hline
  rw [Codec.entries, htext, Option.map_some, Option.some.injEq] at hlog
  rw [Codec.entries, Codec.line, Utf8.strict_append htext, Option.map_some,
    Text.bufLines_append hends he.newline he.cr, List.filterMap_append, hlog]
  simp only [List.filterMap_cons, he.decode_encode, List.filterMap_nil]

theorem beginsLine_append {log : List UInt8} {text : List Char} (h : Utf8.strict log = some text)
    (e : ε) : beginsLine (log ++ c.line e) = true := by
  rw [beginsLine, Codec.line, Utf8.strict_append h, Option.any_some]
  exact Text.endsLine_append_newline _ _

namespace Holds

theorem nil : Holds c [] [] := ⟨rfl, nofun⟩

/-- A whole line. -/
theorem append {log : List UInt8} {landed : List (Landed ε)} (h : Holds c log landed) {e : ε}
    (he : c.Writes e) (hline : beginsLine log = true) (returned : Bool) :
    Holds c (log ++ c.line e) (landed ++ [⟨e, returned⟩]) := by
  refine ⟨?_, ?_⟩
  · rw [entries_append h.entries he hline, List.map_append, List.map_cons, List.map_nil]
  · intro x hx
    rcases List.mem_append.mp hx with hx | hx
    · exact h.writes x hx
    · rw [List.mem_singleton.mp hx]
      exact he

/-- A crash, or an error, while a line is written. -/
theorem torn {log : List UInt8} {landed : List (Landed ε)} (h : Holds c log landed) {e : ε}
    (he : c.Writes e) {k : ℕ} (hcut : c.cutFits log e k = true) :
    Holds c (log ++ (c.line e).take k) (landed ++ c.remnant e k) := by
  have hlen : 2 ≤ (c.line e).length := by
    have hpos : (Utf8.encode (c.encode e)).length ≠ 0 := by
      intro hzero
      exact he.ne_nil (Utf8.encode_eq_nil (List.eq_nil_of_length_eq_zero hzero))
    rw [Codec.line, Utf8.encode_append, List.length_append]
    have hone : (Utf8.encode ['\n']).length = 1 := by decide
    omega
  rw [Codec.cutFits, Bool.or_eq_true, Bool.and_eq_true, beq_iff_eq] at hcut
  rcases hcut with rfl | ⟨hline, hcut⟩
  · rw [List.take_zero, List.append_nil, Codec.remnant, if_neg (by omega), List.append_nil]
    exact h
  · obtain ⟨text, htext, hends⟩ := (Option.any_eq_true _ _).mp hline
    rw [Utf8.eq_encode_of_strict htext] at hcut
    obtain ⟨p, hp⟩ := Utf8.exists_of_strict_append hcut
    have hwhole : Utf8.encode p ++ (c.line e).drop k = Utf8.encode (c.encode e ++ ['\n']) := by
      rw [← hp]
      exact List.take_append_drop k _
    obtain ⟨q, hpq, hq⟩ := Utf8.exists_of_encode_append hwhole
    have hdrop := congrArg List.length hq
    rw [List.length_drop] at hdrop
    rcases List.eq_nil_or_concat q with rfl | ⟨q, b, rfl⟩
    · -- nothing is missing
      have hk : (c.line e).length ≤ k := by
        have hzero : (Utf8.encode []).length = 0 := rfl
        omega
      rw [List.take_of_length_le hk, Codec.remnant, if_pos (by omega)]
      exact h.append he hline false
    · rw [List.concat_eq_append, ← List.append_assoc] at hpq
      obtain ⟨hpq, hb⟩ := List.append_inj' hpq rfl
      rw [List.concat_eq_append, hb, Utf8.encode_append, List.length_append] at hdrop
      have hone : (Utf8.encode ['\n']).length = 1 := by decide
      have hnewline : '\n' ∉ p := by
        intro hmem
        apply he.newline
        rw [← hpq]
        exact List.mem_append_left _ hmem
      have hread : c.entries (log ++ (c.line e).take k)
          = some (landed.map Landed.entry ++ (c.decode p).toList) := by
        have hentries := h.entries
        rw [Codec.entries, htext, Option.map_some, Option.some.injEq] at hentries
        rw [hp, Codec.entries, Utf8.strict_append htext, Option.map_some]
        by_cases hnil : p = []
        · have hnone : c.decode p = none := by
            apply he.torn p q hpq
            rintro rfl
            exact he.ne_nil (by rw [← hpq, hnil]; rfl)
          rw [hnone, hnil, List.append_nil, hentries, Option.toList_none, List.append_nil]
        · rw [Text.bufLines_append_last hends hnewline hnil, List.filterMap_append, hentries]
          cases hd : c.decode p with
          | none => simp [hd]
          | some x => simp [hd]
      by_cases hrest : q = []
      · -- the newline is missing
        rw [hrest, List.append_nil] at hpq
        have hk : (c.line e).length ≤ k + 1 := by
          rw [hrest] at hdrop
          have hzero : (Utf8.encode []).length = 0 := rfl
          omega
        rw [hpq, he.decode_encode] at hread
        rw [Codec.remnant, if_pos hk]
        refine ⟨by rw [hread, List.map_append]; rfl, ?_⟩
        intro x hx
        rcases List.mem_append.mp hx with hx | hx
        · exact h.writes x hx
        · rw [List.mem_singleton.mp hx]
          exact he
      · have hk : ¬ (c.line e).length ≤ k + 1 := by
          have hpos : (Utf8.encode q).length ≠ 0 := by
            intro hzero
            exact hrest (Utf8.encode_eq_nil (List.eq_nil_of_length_eq_zero hzero))
          omega
        rw [he.torn p q hpq hrest, Option.toList_none, List.append_nil] at hread
        rw [Codec.remnant, if_neg hk, List.append_nil]
        exact ⟨hread, h.writes⟩

/-- A log that is written anew. -/
theorem rewrite {landed : List (Landed ε)} (h : ∀ x ∈ landed, c.Writes x.entry) :
    Holds c ((landed.map Landed.entry).flatMap c.line) landed := by
  induction landed using List.reverseRecOn with
  | nil => exact nil
  | append_singleton landed x ih =>
    have hearlier := ih fun y hy => h y (List.mem_append_left _ hy)
    have hx := h x (List.mem_append_right _ (List.mem_singleton_self x))
    have htext : Utf8.strict ((landed.map Landed.entry).flatMap c.line)
        = some ((landed.map Landed.entry).flatMap fun e => c.encode e ++ ['\n']) := by
      have henc : (landed.map Landed.entry).flatMap c.line
          = Utf8.encode ((landed.map Landed.entry).flatMap fun e => c.encode e ++ ['\n']) := by
        rw [Utf8.encode, List.flatMap_assoc]
        rfl
      rw [henc, Utf8.strict_encode]
    have hline : beginsLine ((landed.map Landed.entry).flatMap c.line) = true := by
      rw [beginsLine, htext, Option.any_some]
      exact Text.endsLine_flatMap _ _
    rw [List.map_append, List.flatMap_append, List.map_cons, List.map_nil, List.flatMap_cons,
      List.flatMap_nil, List.append_nil]
    exact hearlier.append hx hline x.returned

end Holds

/-! ## Lines of JSON -/

/-- Entries that are written as objects. -/
def jsonCodec (value : ε → Json.Value) (read : Json.Value → Option ε) : Codec ε where
  encode e := Json.render (value e)
  decode line := (Json.parse line).bind read

theorem writes_json {value : ε → Json.Value} {read : Json.Value → Option ε} {e : ε}
    {ms : List (List Char × Json.Value)} (hvalue : value e = .obj ms)
    (hvalid : (value e).valid = true) (hread : read (value e) = some e) :
    (jsonCodec value read).Writes e := by
  have hcontrol : ∀ x ∈ Json.render (value e), 0x20 ≤ x.toNat :=
    fun x hx => Json.le_of_mem_render _ hvalid hx
  refine ⟨?_, ?_, ?_, ?_, ?_⟩
  · intro hmem
    exact absurd (hcontrol _ hmem) (by decide)
  · intro hlast
    exact absurd (hcontrol _ (List.mem_of_getLast? hlast)) (by decide)
  · obtain ⟨t, ht⟩ := Json.render_obj_head ms
    show Json.render (value e) ≠ []
    rw [hvalue, ht]
    exact List.cons_ne_nil _ _
  · show (Json.parse (Json.render (value e))).bind read = some e
    rw [Json.parse_render hvalid, Option.bind_some, hread]
  · intro p q hpq hq
    show (Json.parse p).bind read = none
    rw [hvalue] at hvalid
    have hpq : p ++ q = Json.render (.obj ms) := by
      rw [← hvalue]
      exact hpq
    rw [Json.parse_beginning hvalid hpq hq, Option.bind_none]

end LineLog
