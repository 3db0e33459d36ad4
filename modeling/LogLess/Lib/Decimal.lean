import Mathlib.Data.List.Basic
import Mathlib.Tactic

/-!
# Decimal text

A number printed in decimal, padded with zeros or not, and read back as `str::parse`
does: an optional plus sign and at least one digit, with a value below `2 ^ 64`.
-/

namespace Decimal

/-- `n.to_string()`. -/
def ofNat (n : ℕ) : List Char := Nat.toDigits 10 n

def ofInt (n : ℤ) : List Char := if n < 0 then '-' :: ofNat n.natAbs else ofNat n.natAbs

/-- `format!("{n:0width$}")`. -/
def padded (width n : ℕ) : List Char :=
  List.replicate (width - (ofNat n).length) '0' ++ ofNat n

/-- A leading plus sign taken off. -/
def stripPlus : List Char → List Char
  | '+' :: rest => rest
  | t => t

/-- `str::parse::<u64>`. -/
def parse (t : List Char) : Option ℕ :=
  let digits := stripPlus t
  if digits ≠ [] ∧ digits.all Char.isDigit ∧ Nat.ofDigitChars 10 digits 0 < 2 ^ 64 then
    some (Nat.ofDigitChars 10 digits 0)
  else none

/-- `str::parse::<i64>`. -/
def parseInt (t : List Char) : Option ℤ :=
  let (negative, digits) := match t with
    | '-' :: rest => (true, rest)
    | _ => (false, stripPlus t)
  if digits ≠ [] ∧ digits.all Char.isDigit then
    let n := Nat.ofDigitChars 10 digits 0
    if negative then if n ≤ 2 ^ 63 then some (-n) else none
    else if n < 2 ^ 63 then some n else none
  else none

theorem isDigit_of_mem_ofNat {n : ℕ} {c : Char} (h : c ∈ ofNat n) : c.isDigit = true :=
  Nat.isDigit_of_mem_toDigits (by omega) le_rfl h

theorem isDigit_of_mem_padded {width n : ℕ} {c : Char} (h : c ∈ padded width n) :
    c.isDigit = true := by
  rcases List.mem_append.mp h with h | h
  · rw [List.eq_of_mem_replicate h]
    rfl
  · exact isDigit_of_mem_ofNat h

@[simp] theorem ofDigitChars_padded (width n : ℕ) :
    Nat.ofDigitChars 10 (padded width n) 0 = n := by
  rw [padded, Nat.ofDigitChars_append, Nat.ofDigitChars_replicate_zero, Nat.mul_zero, ofNat,
    Nat.ofDigitChars_ten_toDigits]

theorem padded_inj {width a b : ℕ} : padded width a = padded width b ↔ a = b := by
  refine ⟨fun h => ?_, fun h => by rw [h]⟩
  rw [← ofDigitChars_padded width a, h, ofDigitChars_padded]

/-- No padding is padding to width zero. -/
theorem ofNat_eq_padded (n : ℕ) : ofNat n = padded 0 n := by simp [padded]

theorem padded_ne_nil (width n : ℕ) : padded width n ≠ [] := by
  simp [padded, ofNat, Nat.toDigits_ne_nil]

theorem parse_padded (width : ℕ) {n : ℕ} (h : n < 2 ^ 64) : parse (padded width n) = some n := by
  have hplus : stripPlus (padded width n) = padded width n := by
    unfold stripPlus
    split
    · next rest heq =>
      have := isDigit_of_mem_padded (c := '+') (heq ▸ List.mem_cons_self)
      exact absurd this (by decide)
    · rfl
  have hdigits : (padded width n).all Char.isDigit = true :=
    List.all_eq_true.mpr fun c hc => isDigit_of_mem_padded hc
  simp only [parse, hplus, ofDigitChars_padded]
  rw [if_pos ⟨padded_ne_nil width n, hdigits, h⟩]

theorem parse_ofNat {n : ℕ} (h : n < 2 ^ 64) : parse (ofNat n) = some n := by
  rw [ofNat_eq_padded, parse_padded 0 h]

theorem parseInt_padded (width : ℕ) {n : ℕ} (h : n < 2 ^ 63) :
    parseInt (padded width n) = some (n : ℤ) := by
  have hdigits : (padded width n).all Char.isDigit = true :=
    List.all_eq_true.mpr fun c hc => isDigit_of_mem_padded hc
  have hsign : ∀ rest c, padded width n = c :: rest → c.isDigit = true := by
    intro rest c heq
    exact isDigit_of_mem_padded (heq ▸ List.mem_cons_self)
  have hplus : stripPlus (padded width n) = padded width n := by
    unfold stripPlus
    split
    · next rest heq => exact absurd (hsign rest '+' heq) (by decide)
    · rfl
  unfold parseInt
  split
  · next heq =>
    split at heq
    · next rest hminus => exact absurd (hsign rest '-' hminus) (by decide)
    · cases heq
      rw [hplus, if_pos ⟨padded_ne_nil width n, hdigits⟩]
      simp only [ofDigitChars_padded, Bool.false_eq_true, if_false]
      rw [if_pos h]

theorem parseInt_bounds {t : List Char} {n : ℤ} (h : parseInt t = some n) :
    -2 ^ 63 ≤ n ∧ n < 2 ^ 63 := by
  unfold parseInt at h
  split at h
  next negative digits heq =>
  split at h
  · dsimp only at h
    split at h
    · split at h
      · cases h
        omega
      · cases h
    · split at h
      · cases h
        omega
      · cases h
  · cases h

/-! ## Digits of a fixed number of places -/

theorem length_padded {width n : ℕ} (hw : 0 < width) (h : n < 10 ^ width) :
    (padded width n).length = width := by
  have hle : (ofNat n).length ≤ width := (Nat.length_toDigits_le_iff (by omega) hw).mpr h
  rw [padded, List.length_append, List.length_replicate]
  omega

/-- A first digit and the rest. -/
theorem ofDigitChars_cons_zero (c : Char) (cs : List Char) :
    Nat.ofDigitChars 10 (c :: cs) 0
      = (c.toNat - '0'.toNat) * 10 ^ cs.length + Nat.ofDigitChars 10 cs 0 := by
  rw [Nat.ofDigitChars_cons, Nat.ofDigitChars_eq_ofDigitChars_zero, Nat.mul_zero, Nat.zero_add,
    Nat.mul_comm]

theorem digit_lt {c : Char} (h : c.isDigit = true) :
    '0'.toNat ≤ c.toNat ∧ c.toNat - '0'.toNat < 10 := by
  simp only [Char.isDigit, Bool.and_eq_true, decide_eq_true_eq] at h
  have h1 : '0'.toNat ≤ c.toNat := UInt32.le_iff_toNat_le.mp h.1
  have h2 : c.toNat ≤ '9'.toNat := UInt32.le_iff_toNat_le.mp h.2
  have : '9'.toNat = '0'.toNat + 9 := rfl
  omega

theorem ofDigitChars_lt {cs : List Char} (h : ∀ c ∈ cs, c.isDigit = true) :
    Nat.ofDigitChars 10 cs 0 < 10 ^ cs.length := by
  induction cs with
  | nil => simp
  | cons c cs ih =>
    have hc := (digit_lt (h c List.mem_cons_self)).2
    have hcs := ih fun d hd => h d (List.mem_cons_of_mem c hd)
    have hmul : (c.toNat - '0'.toNat) * 10 ^ cs.length ≤ 9 * 10 ^ cs.length :=
      Nat.mul_le_mul_right _ (by omega)
    rw [ofDigitChars_cons_zero, List.length_cons, pow_succ]
    omega

/-- Digits of one length with one value are the same digits. -/
theorem ofDigitChars_inj {as bs : List Char} (ha : ∀ c ∈ as, c.isDigit = true)
    (hb : ∀ c ∈ bs, c.isDigit = true) (hlen : as.length = bs.length)
    (h : Nat.ofDigitChars 10 as 0 = Nat.ofDigitChars 10 bs 0) : as = bs := by
  induction as generalizing bs with
  | nil => exact (List.length_eq_zero_iff.mp hlen.symm).symm
  | cons a as ih =>
    cases bs with
    | nil => cases hlen
    | cons b bs =>
      have hlen' : as.length = bs.length := by simpa using hlen
      have ha' : ∀ c ∈ as, c.isDigit = true := fun c hc => ha c (List.mem_cons_of_mem a hc)
      have hb' : ∀ c ∈ bs, c.isDigit = true := fun c hc => hb c (List.mem_cons_of_mem b hc)
      have hda := digit_lt (ha a List.mem_cons_self)
      have hdb := digit_lt (hb b List.mem_cons_self)
      have hlta := ofDigitChars_lt ha'
      have hltb := ofDigitChars_lt hb'
      rw [ofDigitChars_cons_zero, ofDigitChars_cons_zero, hlen'] at h
      rw [hlen'] at hlta
      -- the first digits are the quotients, the rest the remainders
      have hdiv : a.toNat - '0'.toNat = b.toNat - '0'.toNat := by
        have hpos : 0 < 10 ^ bs.length := Nat.pow_pos (by omega)
        have hq := congrArg (· / 10 ^ bs.length) h
        simpa only [Nat.add_comm _ (Nat.ofDigitChars 10 _ 0), Nat.add_mul_div_right _ _ hpos,
          Nat.div_eq_of_lt hlta, Nat.div_eq_of_lt hltb, Nat.zero_add] using hq
      have hrest : Nat.ofDigitChars 10 as 0 = Nat.ofDigitChars 10 bs 0 := by
        rw [hdiv] at h
        omega
      have hchar : a = b := by
        have htoNat : a.toNat = b.toNat := by omega
        rw [← Char.ofNat_toNat a, ← Char.ofNat_toNat b, htoNat]
      rw [hchar, ih ha' hb' hlen' hrest]

/-- Digits are the padded text of their value. -/
theorem padded_ofDigitChars {cs : List Char} (hne : cs ≠ [])
    (h : ∀ c ∈ cs, c.isDigit = true) : padded cs.length (Nat.ofDigitChars 10 cs 0) = cs := by
  have hlen : (padded cs.length (Nat.ofDigitChars 10 cs 0)).length = cs.length :=
    length_padded (List.length_pos_of_ne_nil hne) (ofDigitChars_lt h)
  exact ofDigitChars_inj (fun c hc => isDigit_of_mem_padded hc) h hlen (ofDigitChars_padded _ _)

/-- Digits with no zero in front of the least width are the padded text of their value. -/
theorem padded_eq_of_digits {width : ℕ} {cs : List Char} (hdigits : ∀ c ∈ cs, c.isDigit = true)
    (hwidth : 0 < width) (hle : width ≤ cs.length)
    (hlead : cs.length = width ∨ cs.head? ≠ some '0') :
    padded width (Nat.ofDigitChars 10 cs 0) = cs := by
  have hne : cs ≠ [] := by
    rintro rfl
    simp only [List.length_nil] at hle
    omega
  rcases hlead with hlen | hlead
  · rw [← hlen]
    exact padded_ofDigitChars hne hdigits
  · cases cs with
    | nil => exact absurd rfl hne
    | cons c cs =>
      have hc := digit_lt (hdigits c List.mem_cons_self)
      have hzero : c ≠ '0' := fun h => hlead (by rw [h, List.head?_cons])
      have hpos : c.toNat ≠ '0'.toNat := fun h => hzero (by
        rw [← Char.ofNat_toNat c, h, Char.ofNat_toNat])
      -- the value has as many digits as the text
      have hlower : 10 ^ cs.length ≤ Nat.ofDigitChars 10 (c :: cs) 0 := by
        rw [ofDigitChars_cons_zero]
        have hmul : 1 * 10 ^ cs.length ≤ (c.toNat - '0'.toNat) * 10 ^ cs.length :=
          Nat.mul_le_mul_right _ (by omega)
        omega
      have hlong : (c :: cs).length ≤ (ofNat (Nat.ofDigitChars 10 (c :: cs) 0)).length := by
        by_contra hshort
        rw [List.length_cons] at hshort
        rcases Nat.eq_zero_or_pos cs.length with hnil | hpos
        · have htext : ofNat (Nat.ofDigitChars 10 (c :: cs) 0) ≠ [] := Nat.toDigits_ne_nil
          have := List.length_pos_of_ne_nil htext
          omega
        · have := (Nat.length_toDigits_le_iff (by omega) hpos).mp (show (Nat.toDigits 10
            (Nat.ofDigitChars 10 (c :: cs) 0)).length ≤ cs.length by
              unfold ofNat at hshort
              omega)
          omega
      have hfull := padded_ofDigitChars hne hdigits
      rw [padded, Nat.sub_eq_zero_of_le hlong] at hfull
      rw [padded, Nat.sub_eq_zero_of_le (hle.trans hlong)]
      exact hfull

/-- Padding puts zeros in front only up to the width. -/
theorem head?_padded {width n : ℕ} (hlong : width < (padded width n).length) (hwidth : 0 < width) :
    (padded width n).head? ≠ some '0' := by
  have hpad : padded width n = ofNat n := by
    have hlen : width ≤ (ofNat n).length := by
      rw [padded, List.length_append, List.length_replicate] at hlong
      omega
    rw [padded, Nat.sub_eq_zero_of_le hlen]
    rfl
  rw [hpad] at hlong ⊢
  intro hhead
  cases hn : ofNat n with
  | nil =>
    rw [hn] at hhead
    cases hhead
  | cons c cs =>
    rw [hn, List.head?_cons] at hhead
    obtain rfl := Option.some.inj hhead
    rw [hn, List.length_cons] at hlong
    have hvalue : Nat.ofDigitChars 10 ('0' :: cs) 0 = n := by
      rw [← hn, ofNat, Nat.ofDigitChars_ten_toDigits]
    have hcs : ∀ c ∈ cs, c.isDigit = true := fun c hc =>
      isDigit_of_mem_ofNat (hn ▸ List.mem_cons_of_mem _ hc)
    have hlt : n < 10 ^ cs.length := by
      rw [← hvalue, ofDigitChars_cons_zero, Nat.sub_self, Nat.zero_mul, Nat.zero_add]
      exact ofDigitChars_lt hcs
    have hle := (Nat.length_toDigits_le_iff (by omega) (show 0 < cs.length by omega)).mpr hlt
    have hlength : (Nat.toDigits 10 n).length = cs.length + 1 := by
      rw [show Nat.toDigits 10 n = '0' :: cs from hn, List.length_cons]
    omega

end Decimal
