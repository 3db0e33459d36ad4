import LogLess.Lib.Frames
import LogLess.Lib.Lists
import LogLess.Lib.Text
import LogLess.Lib.Utf8
import LogLess.Model

/-!
# Queries of the event collector

`query_pairs` walks over the bytes of a key or a value but slices the text, and a slice that ends
inside a character panics; what is sliced goes to an integer parser that also takes a sign. `none`
stands for the panic. `formPairs` is what a query says.
-/

namespace LogLess.Hec

open Frames (Bytes)

def percent : UInt8 := 0x25

def plus : UInt8 := 0x2B

/-- `char::to_digit(16)`. -/
def hexDigit (b : UInt8) : Option ℕ :=
  if 0x30 ≤ b.toNat ∧ b.toNat ≤ 0x39 then some (b.toNat - 0x30)
  else if 0x61 ≤ b.toNat ∧ b.toNat ≤ 0x66 then some (b.toNat - 0x57)
  else if 0x41 ≤ b.toNat ∧ b.toNat ≤ 0x46 then some (b.toNat - 0x37)
  else none

/-- The loop of `from_str_radix`, with its check of overflow. -/
def hexDigits : ℕ → Bytes → Option UInt8
  | acc, [] => some (UInt8.ofNat acc)
  | acc, b :: bs =>
    match hexDigit b with
    | none => none
    | some d => if 255 < acc * 16 + d then none else hexDigits (acc * 16 + d) bs

/-- `u8::from_str_radix(_, 16)`: a sign may stand before the digits, and for an unsigned number it
is a plus. -/
def fromStrRadix16 : Bytes → Option UInt8
  | [] => none
  | [b] => if b = plus ∨ b = 0x2D then none else hexDigits 0 [b]
  | b :: bs => if b = plus then hexDigits 0 bs else hexDigits 0 (b :: bs)

/-- `is_char_boundary` before the bytes: they are the end, or begin no continuation. -/
def boundary : Bytes → Bool
  | [] => true
  | b :: _ => b.toNat < 0x80 || 0xC0 ≤ b.toNat

/-- A byte that stands for itself, and the plus for a space. -/
def plain (b : UInt8) : UInt8 := if b = plus then 0x20 else b

/-- The loop of `percent_decode` over the bytes that are left. -/
def decodeBytes : Bytes → Option Bytes
  | b :: h :: l :: rest =>
    if b = percent then
      if boundary (h :: l :: rest) && boundary rest then
        match fromStrRadix16 [h, l] with
        | some byte => (decodeBytes rest).map (byte :: ·)
        | none => (decodeBytes (h :: l :: rest)).map (percent :: ·)
      else none
    else (decodeBytes (h :: l :: rest)).map (plain b :: ·)
  | b :: bs => (decodeBytes bs).map (plain b :: ·)
  | [] => some []

def percentDecode (s : Text) : Option Text := (decodeBytes (Utf8.encode s)).map Utf8.lossy

/-- The keys and values of a query, not decoded yet. -/
def rawPairs (query : Text) : List (Text × Text) :=
  ((Text.splitAt '&' query).filter fun pair => !pair.isEmpty).map fun pair =>
    (Text.splitOnce '=' pair).getD (pair, [])

def queryPairs (query : Text) : Option (List (Text × Text)) :=
  (rawPairs query).mapM fun kv => do
    return (← percentDecode kv.1, ← percentDecode kv.2)

/-! ## What a query says -/

def hexByte (h l : UInt8) : Option UInt8 :=
  match hexDigit h, hexDigit l with
  | some a, some b => some (UInt8.ofNat (a * 16 + b))
  | _, _ => none

/-- A percent sign stands for a byte before two digits, and for itself elsewhere. -/
def formBytes : Bytes → Bytes
  | b :: h :: l :: rest =>
    if b = percent then
      match hexByte h l with
      | some byte => byte :: formBytes rest
      | none => percent :: formBytes (h :: l :: rest)
    else plain b :: formBytes (h :: l :: rest)
  | b :: bs => plain b :: formBytes bs
  | [] => []

def formDecode (s : Text) : Text := Utf8.lossy (formBytes (Utf8.encode s))

def formPairs (query : Text) : List (Text × Text) :=
  (rawPairs query).map fun kv => (formDecode kv.1, formDecode kv.2)

/-- No percent sign with two bytes after it has them cut a character or be a plus and a digit. -/
def clear : Bytes → Bool
  | b :: h :: l :: rest =>
    (b ≠ percent || boundary (h :: l :: rest) && boundary rest &&
      !(h = plus && (hexDigit l).isSome)) && clear (h :: l :: rest)
  | _ => true

/-! ## One key or value -/

theorem hexDigit_bounds {b : UInt8} {d : ℕ} (h : hexDigit b = some d) :
    d < 16 ∧ b ≠ percent ∧ b ≠ plus ∧ b.toNat < 0x80 := by
  have hall : ∀ n < 256, (hexDigit (UInt8.ofNat n)).all (fun d => d < 16 ∧ UInt8.ofNat n ≠ percent ∧
      UInt8.ofNat n ≠ plus ∧ (UInt8.ofNat n).toNat < 0x80) = true := by
    decide +kernel
  have hb := hall b.toNat b.toNat_lt
  rw [UInt8.ofNat_toNat, h] at hb
  exact of_decide_eq_true hb

/-- Two digits are read as their byte, and a plus with a digit as if it were not there. -/
theorem fromStrRadix16_pair (h l : UInt8) :
    fromStrRadix16 [h, l] = if h = plus then (hexDigit l).map UInt8.ofNat else hexByte h l := by
  have hone : ∀ (acc : ℕ), acc < 16 → hexDigits acc [l]
      = (hexDigit l).map fun d => UInt8.ofNat (acc * 16 + d) := by
    intro acc hacc
    rw [hexDigits]
    cases hl : hexDigit l with
    | none => rfl
    | some d =>
      have := (hexDigit_bounds hl).1
      simp only [Option.map_some, if_neg (show ¬ 255 < acc * 16 + d by omega)]
      rfl
  rw [fromStrRadix16]
  split
  · rw [hone 0 (by decide)]
    simp only [Nat.zero_mul, Nat.zero_add]
  · rw [hexDigits, hexByte]
    cases hh : hexDigit h with
    | none => rfl
    | some a =>
      have ha := (hexDigit_bounds hh).1
      simp only [Nat.zero_mul, Nat.zero_add, if_neg (show ¬ 255 < a by omega), hone a ha]
      cases hexDigit l <;> rfl
  · simp

theorem decodeBytes_cons {b : UInt8} (hb : b ≠ percent) (bs : Bytes) :
    decodeBytes (b :: bs) = (decodeBytes bs).map (plain b :: ·) := by
  match bs with
  | [] => rfl
  | [_] => rfl
  | h :: l :: rest => rw [decodeBytes, if_neg hb]

theorem formBytes_cons {b : UInt8} (hb : b ≠ percent) (bs : Bytes) :
    formBytes (b :: bs) = plain b :: formBytes bs := by
  match bs with
  | [] => rfl
  | [_] => rfl
  | h :: l :: rest => rw [formBytes, if_neg hb]

theorem clear_cons {b : UInt8} (hb : b ≠ percent) (bs : Bytes) : clear (b :: bs) = clear bs := by
  match bs with
  | [] => rfl
  | [_] => rfl
  | h :: l :: rest => rw [clear, decide_eq_true hb, Bool.true_or, Bool.true_and]

/-- The percent signs among the bytes. -/
def percents (bytes : Bytes) : ℕ := bytes.countP fun b => b = percent

theorem percents_cons (b : UInt8) (bs : Bytes) :
    percents (b :: bs) = percents bs + if b = percent then 1 else 0 := by
  rw [percents, List.countP_cons]
  simp only [decide_eq_true_eq]
  rfl

theorem hexByte_eq_some {h l byte : UInt8} (hbyte : hexByte h l = some byte) :
    (∃ a, hexDigit h = some a) ∧ ∃ b, hexDigit l = some b := by
  unfold hexByte at hbyte
  split at hbyte
  · next a b ha hb => exact ⟨⟨a, ha⟩, b, hb⟩
  · cases hbyte

/-- A value is decoded as it says where every percent sign is clear. Elsewhere the decoder panics,
or a percent sign is lost. -/
def Decodes (bytes : Bytes) : Prop :=
  (clear bytes = true → decodeBytes bytes = some (formBytes bytes)) ∧
    ∀ out, decodeBytes bytes = some out → percents out ≤ percents (formBytes bytes) ∧
      (clear bytes = false → percents out < percents (formBytes bytes))

/-- A byte that is read as it says. -/
theorem Decodes.cons {bytes bs : Bytes} {x : UInt8}
    (hdecode : decodeBytes bytes = (decodeBytes bs).map (x :: ·))
    (hform : formBytes bytes = x :: formBytes bs) (hclear : clear bytes = clear bs)
    (h : Decodes bs) : Decodes bytes := by
  constructor
  · intro hc
    rw [hdecode, hform, h.1 (hclear ▸ hc)]
    rfl
  · intro out hout
    obtain ⟨out', hout', rfl⟩ := Option.map_eq_some_iff.mp (hdecode ▸ hout)
    obtain ⟨hle, hlt⟩ := h.2 out' hout'
    rw [hform, hclear, percents_cons, percents_cons]
    exact ⟨Nat.add_le_add_right hle _, fun hc => Nat.add_lt_add_right (hlt hc) _⟩

theorem decodes (bytes : Bytes) : Decodes bytes := by
  induction bytes using decodeBytes.induct with
  | case1 h l rest hbound byte hbyte ih =>
    have hdecode : decodeBytes (percent :: h :: l :: rest) = (decodeBytes rest).map (byte :: ·) := by
      rw [decodeBytes, if_pos rfl, if_pos hbound, hbyte]
    rw [fromStrRadix16_pair] at hbyte
    by_cases hplus : h = plus
    · -- the sign is taken for a part of the number
      rw [if_pos hplus] at hbyte
      obtain ⟨d, hd, rfl⟩ := Option.map_eq_some_iff.mp hbyte
      obtain ⟨hd16, hl, -⟩ := hexDigit_bounds hd
      have hclear : clear (percent :: h :: l :: rest) = false := by
        simp [clear, hplus, hd]
      have hform : formBytes (percent :: h :: l :: rest)
          = percent :: plain plus :: plain l :: formBytes rest := by
        have hnone : hexByte h l = none := by
          rw [hplus]
          rfl
        rw [formBytes, if_pos rfl, hnone, hplus, formBytes_cons (by decide), formBytes_cons hl]
      refine ⟨fun hc => absurd hc (by rw [hclear]; decide), ?_⟩
      intro out hout
      obtain ⟨out', hout', rfl⟩ := Option.map_eq_some_iff.mp (hdecode ▸ hout)
      have hle := (ih.2 out' hout').1
      have hne : UInt8.ofNat d ≠ percent := by
        intro heq
        have hd : d % 256 = 37 := congrArg UInt8.toNat heq
        omega
      have hlost : percents (UInt8.ofNat d :: out')
          < percents (percent :: plain plus :: plain l :: formBytes rest) := by
        rw [percents_cons, if_neg hne, percents_cons, if_pos rfl, percents_cons, percents_cons]
        omega
      rw [hform]
      exact ⟨hlost.le, fun _ => hlost⟩
    · rw [if_neg hplus] at hbyte
      obtain ⟨⟨a, ha⟩, b, hb⟩ := hexByte_eq_some hbyte
      have hh := (hexDigit_bounds ha).2.1
      have hl := (hexDigit_bounds hb).2.1
      apply ih.cons hdecode
      · rw [formBytes, if_pos rfl, hbyte]
      · rw [clear, hbound, clear_cons hh, clear_cons hl]
        simp [hplus]
  | case2 h l rest hbound hnone ih =>
    have hdecode : decodeBytes (percent :: h :: l :: rest)
        = (decodeBytes (h :: l :: rest)).map (percent :: ·) := by
      rw [decodeBytes, if_pos rfl, if_pos hbound, hnone]
    rw [fromStrRadix16_pair] at hnone
    by_cases hplus : h = plus
    · rw [if_pos hplus, Option.map_eq_none_iff] at hnone
      apply ih.cons hdecode
      · have hbyte : hexByte h l = none := by
          rw [hplus]
          rfl
        rw [formBytes, if_pos rfl, hbyte]
      · rw [clear, hbound, hnone]
        simp
    · rw [if_neg hplus] at hnone
      apply ih.cons hdecode
      · rw [formBytes, if_pos rfl, hnone]
      · rw [clear, hbound]
        simp [hplus]
  | case3 h l rest hbound =>
    -- the slice ends inside a character
    have hdecode : decodeBytes (percent :: h :: l :: rest) = none := by
      rw [decodeBytes, if_pos rfl, if_neg hbound]
    have hclear : clear (percent :: h :: l :: rest) = false := by
      rw [clear, Bool.eq_false_of_not_eq_true hbound]
      simp
    refine ⟨fun hc => absurd hc (by rw [hclear]; decide), ?_⟩
    intro out hout
    rw [hdecode] at hout
    cases hout
  | case4 b h l rest hb ih =>
    exact ih.cons (decodeBytes_cons hb _) (formBytes_cons hb _) (clear_cons hb _)
  | case5 b bs hshort ih =>
    have hclear : clear (b :: bs) = clear bs := by
      match bs with
      | [] => rfl
      | [_] => rfl
      | h :: l :: rest => exact absurd rfl (hshort h l rest)
    refine ih.cons (x := plain b) ?_ ?_ hclear
    · rw [decodeBytes.eq_2 b bs hshort]
    · rw [formBytes.eq_2 b bs hshort]
  | case6 => exact ⟨fun _ => rfl, fun out hout => by cases hout; exact ⟨le_rfl, nofun⟩⟩

/-- A key or value is decoded as it says if and only if its percent signs are clear. -/
theorem percentDecode_iff (t : Text) :
    percentDecode t = some (formDecode t) ↔ clear (Utf8.encode t) = true := by
  constructor
  · intro h
    obtain ⟨out, hout, hlossy⟩ := Option.map_eq_some_iff.mp h
    by_contra hc
    have hlost := ((decodes _).2 out hout).2 (Bool.eq_false_of_not_eq_true hc)
    -- the percent sign that was lost is missing in the text
    have hcount : ∀ bytes : Bytes, (Utf8.lossy bytes).count '%' = percents bytes := by
      intro bytes
      rw [Utf8.count_lossy (by decide) (by decide), percents]
      congr 1
      funext b
      rw [decide_eq_decide, ← UInt8.toNat_inj]
      rfl
    rw [formDecode] at hlossy
    have hsame := congrArg (List.count '%') hlossy
    rw [hcount, hcount] at hsame
    omega
  · intro h
    rw [percentDecode, (decodes _).1 h]
    rfl

/-! ## Queries -/

/-- A query is decoded as it says if and only if the percent signs of its keys and values are
clear. -/
theorem queryPairs_iff (query : Text) : queryPairs query = some (formPairs query) ↔
    ∀ kv ∈ rawPairs query, clear (Utf8.encode kv.1) = true ∧ clear (Utf8.encode kv.2) = true := by
  have hpair : ∀ kv : Text × Text, (do
      return (← percentDecode kv.1, ← percentDecode kv.2) : Option (Text × Text))
        = some (formDecode kv.1, formDecode kv.2) ↔
      percentDecode kv.1 = some (formDecode kv.1) ∧ percentDecode kv.2 = some (formDecode kv.2) := by
    intro kv
    cases percentDecode kv.1 <;> cases percentDecode kv.2 <;> simp
  rw [queryPairs, formPairs, Lists.mapM_eq_some_iff, List.forall₂_map_right_iff, List.forall₂_same]
  apply forall₂_congr
  intro kv _
  rw [hpair, percentDecode_iff, percentDecode_iff]

/-- How bytes may be written in a form: a byte of an ASCII character that is not reserved stands for
itself, a space is a plus, and every byte can be two digits after a percent sign. -/
inductive FormEncoded : Bytes → Text → Prop
  | nil : FormEncoded [] []
  | plain {c : Char} {bytes : Bytes} {t : Text} : c.toNat < 0x80 → c ≠ '%' → c ≠ '+' → c ≠ '&' →
    c ≠ '=' → FormEncoded bytes t → FormEncoded (UInt8.ofNat c.toNat :: bytes) (c :: t)
  | space {bytes : Bytes} {t : Text} : FormEncoded bytes t → FormEncoded (0x20 :: bytes) ('+' :: t)
  | digits {h l : Char} {byte : UInt8} {bytes : Bytes} {t : Text} : h.toNat < 0x80 → l.toNat < 0x80 →
    hexByte (UInt8.ofNat h.toNat) (UInt8.ofNat l.toNat) = some byte → FormEncoded bytes t →
    FormEncoded (byte :: bytes) ('%' :: h :: l :: t)

theorem encode_cons_ascii {c : Char} (h : c.toNat < 0x80) (t : Text) :
    Utf8.encode (c :: t) = UInt8.ofNat c.toNat :: Utf8.encode t := by
  have hchar : String.utf8EncodeChar c = [UInt8.ofNat c.toNat] := by
    rw [String.utf8EncodeChar_eq_singleton (by simp [Char.utf8Size_eq_one_iff]; exact Nat.lt_succ_iff.mp h)]
    rfl
  rw [Utf8.encode, List.flatMap_cons, hchar]
  rfl

theorem ofNat_toNat_ne {c d : Char} (h : c.toNat < 0x80) (hd : d.toNat < 0x80) (hne : c ≠ d) :
    UInt8.ofNat c.toNat ≠ UInt8.ofNat d.toNat := by
  intro heq
  have := congrArg UInt8.toNat heq
  rw [UInt8.toNat_ofNat', UInt8.toNat_ofNat', Nat.mod_eq_of_lt (by omega),
    Nat.mod_eq_of_lt (by omega)] at this
  exact hne (Char.toNat_inj.mp this)

/-- What is written in a form is clear, and says the bytes. -/
structure Written (bytes : Bytes) (t : Text) : Prop where
  isClear : clear (Utf8.encode t) = true
  bytes_eq : formBytes (Utf8.encode t) = bytes
  aligned : boundary (Utf8.encode t) = true
  amp : '&' ∉ t
  eq : '=' ∉ t

/-- One more ASCII character that is neither a percent sign nor a separator. -/
theorem Written.cons {bytes : Bytes} {t : Text} (h : Written bytes t) {c : Char} (hc : c.toNat < 0x80)
    (hpercent : c ≠ '%') (hamp : c ≠ '&') (heq : c ≠ '=') :
    Written (Hec.plain (UInt8.ofNat c.toNat) :: bytes) (c :: t) := by
  have hne : UInt8.ofNat c.toNat ≠ percent := ofNat_toNat_ne hc (by decide) hpercent
  have hencode := encode_cons_ascii hc t
  refine ⟨?_, ?_, ?_, ?_, ?_⟩
  · rw [hencode, clear_cons hne]
    exact h.isClear
  · rw [hencode, formBytes_cons hne, h.bytes_eq]
  · have hbyte : (UInt8.ofNat c.toNat).toNat = c.toNat := by
      rw [UInt8.toNat_ofNat', Nat.mod_eq_of_lt (by omega)]
    rw [hencode, boundary, hbyte, decide_eq_true hc, Bool.true_or]
  · exact List.not_mem_cons_of_ne_of_not_mem hamp.symm h.amp
  · exact List.not_mem_cons_of_ne_of_not_mem heq.symm h.eq

theorem FormEncoded.written {bytes : Bytes} {t : Text} (h : FormEncoded bytes t) :
    Written bytes t := by
  induction h with
  | nil => exact ⟨rfl, rfl, rfl, by simp, by simp⟩
  | @plain c bytes t hc hpercent hplus hamp heq _ ih =>
    have hbyte : Hec.plain (UInt8.ofNat c.toNat) = UInt8.ofNat c.toNat :=
      if_neg (ofNat_toNat_ne hc (by decide) hplus)
    have hcons := ih.cons hc hpercent hamp heq
    rwa [hbyte] at hcons
  | space _ ih => exact ih.cons (c := '+') (by decide) (by decide) (by decide) (by decide)
  | @digits h l byte bytes t hh hl hbyte _ ih =>
    obtain ⟨⟨a, ha⟩, b, hb⟩ := hexByte_eq_some hbyte
    obtain ⟨-, hhpercent, hhplus, -⟩ := hexDigit_bounds ha
    obtain ⟨-, hlpercent, -, -⟩ := hexDigit_bounds hb
    have hencode : Utf8.encode ('%' :: h :: l :: t)
        = percent :: UInt8.ofNat h.toNat :: UInt8.ofNat l.toNat :: Utf8.encode t := by
      rw [encode_cons_ascii (by decide), encode_cons_ascii hh, encode_cons_ascii hl]
      rfl
    have hsep : ∀ {c : Char} {d : ℕ}, hexDigit (UInt8.ofNat c.toNat) = some d →
        '&' ≠ c ∧ '=' ≠ c := by
      intro c d hd
      constructor
      · rintro rfl
        exact absurd hd (by simp [hexDigit])
      · rintro rfl
        exact absurd hd (by simp [hexDigit])
    have hfirst : boundary (UInt8.ofNat h.toNat :: UInt8.ofNat l.toNat :: Utf8.encode t) = true := by
      have hlt := (hexDigit_bounds ha).2.2.2
      rw [boundary, decide_eq_true hlt, Bool.true_or]
    refine ⟨?_, ?_, ?_, ?_, ?_⟩
    · rw [hencode, clear, hfirst, ih.aligned, clear_cons hhpercent, clear_cons hlpercent, ih.isClear]
      simp [hhplus]
    · rw [hencode, formBytes, if_pos rfl, hbyte, ih.bytes_eq]
    · rw [hencode]
      rfl
    · simp [(hsep ha).1, (hsep hb).1, ih.amp]
    · simp [(hsep ha).2, (hsep hb).2, ih.eq]

/-- The parts of a query whose keys and values have no separators. -/
theorem rawPairs_intercalate {parts : List (Text × Text)}
    (h : ∀ part ∈ parts, ('&' ∉ part.1 ∧ '&' ∉ part.2) ∧ '=' ∉ part.1) :
    rawPairs (List.intercalate ['&'] (parts.map fun part => part.1 ++ '=' :: part.2)) = parts := by
  cases parts with
  | nil => rfl
  | cons part parts =>
    have hamp : ∀ p ∈ part :: parts, '&' ∉ p.1 ++ '=' :: p.2 := by
      intro p hp
      obtain ⟨⟨hk, hv⟩, -⟩ := h p hp
      simp [hk, hv]
    have hrest : ∀ pair ∈ parts.map fun p => p.1 ++ '=' :: p.2, '&' ∉ pair := by
      intro pair hpair
      obtain ⟨p, hp, rfl⟩ := List.mem_map.mp hpair
      exact hamp p (List.mem_cons_of_mem _ hp)
    have hkeep : ((part :: parts).map fun p => p.1 ++ '=' :: p.2).filter (fun pair => !pair.isEmpty)
        = (part :: parts).map fun p => p.1 ++ '=' :: p.2 := by
      rw [List.filter_eq_self]
      intro pair hpair
      obtain ⟨p, -, rfl⟩ := List.mem_map.mp hpair
      simp
    have hsplit := Text.splitAt_intercalate (hamp part List.mem_cons_self) hrest
    have hcons : ((part :: parts).map fun p => p.1 ++ '=' :: p.2)
        = (part.1 ++ '=' :: part.2) :: parts.map fun p => p.1 ++ '=' :: p.2 := rfl
    rw [rawPairs, hcons, hsplit, ← hcons, hkeep, List.map_map]
    apply (List.map_congr_left _).trans (List.map_id _)
    intro p hp
    show (Text.splitOnce '=' (p.1 ++ '=' :: p.2)).getD _ = p
    rw [Text.splitOnce_append (h p hp).2]
    rfl

/-- What is read of the form encoding of pairs are the pairs. -/
theorem queryPairs_form {pairs parts : List (Text × Text)}
    (h : List.Forall₂ (fun pair part => FormEncoded (Utf8.encode pair.1) part.1 ∧
      FormEncoded (Utf8.encode pair.2) part.2) pairs parts) :
    queryPairs (List.intercalate ['&'] (parts.map fun part => part.1 ++ '=' :: part.2))
      = some pairs := by
  have hparts : ∀ part ∈ parts, ('&' ∉ part.1 ∧ '&' ∉ part.2) ∧ '=' ∉ part.1 := by
    induction h with
    | nil => simp
    | cons hpair _ ih =>
      have hk := hpair.1.written
      exact List.forall_mem_cons.mpr ⟨⟨⟨hk.amp, hpair.2.written.amp⟩, hk.eq⟩, ih⟩
  rw [queryPairs, rawPairs_intercalate hparts, Lists.mapM_eq_some_iff]
  have hdecode : ∀ {t e : Text}, FormEncoded (Utf8.encode t) e → percentDecode e = some t := by
    intro t e he
    rw [(percentDecode_iff e).mpr he.written.isClear, formDecode, he.written.bytes_eq,
      Utf8.lossy_encode]
  apply List.Forall₂.flip
  apply h.imp
  intro pair part hpair
  show (do return (← percentDecode part.1, ← percentDecode part.2) : Option (Text × Text)) = some pair
  rw [hdecode hpair.1, hdecode hpair.2]
  rfl

/-- A query is decoded as it says if and only if its percent signs are clear. A form is always read
as the pairs it was made of. -/
theorem queryPairs_exact (query : Text) :
    (queryPairs query = some (formPairs query) ↔ ∀ kv ∈ rawPairs query,
      clear (Utf8.encode kv.1) = true ∧ clear (Utf8.encode kv.2) = true) ∧
    ∀ pairs parts : List (Text × Text),
      List.Forall₂ (fun pair part => FormEncoded (Utf8.encode pair.1) part.1 ∧
        FormEncoded (Utf8.encode pair.2) part.2) pairs parts →
      query = List.intercalate ['&'] (parts.map fun part => part.1 ++ '=' :: part.2) →
      queryPairs query = some pairs := by
  refine ⟨queryPairs_iff query, ?_⟩
  intro pairs parts h hquery
  rw [hquery]
  exact queryPairs_form h

/-- `?token=%aé` panics, and `?token=%+5` is a control character instead of `% 5`. -/
theorem queryPairs_unclear :
    queryPairs ("token=%a".toList ++ [Char.ofNat 0xE9]) = none ∧
      queryPairs "token=%+5".toList = some [("token".toList, [Char.ofNat 5])] ∧
      formPairs "token=%+5".toList = [("token".toList, "% 5".toList)] := by
  decide +kernel

end LogLess.Hec
