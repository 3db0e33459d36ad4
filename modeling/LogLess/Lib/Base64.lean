import Mathlib.Data.List.Basic
import Mathlib.Tactic

/-!
# Base64 for URLs, without padding

Three bytes are four digits, and what is left over is two or three. The reader is strict: no padding,
no digit of the other alphabet, and no bits that stand for nothing, so that a text it accepts is the
one that is written for its bytes.

`decode_encode` and `encode_of_decode`: reading and writing are inverse to each other.
-/

namespace Base64

def digit (n : ℕ) : Char :=
  if n < 26 then Char.ofNat (65 + n)
  else if n < 52 then Char.ofNat (97 + (n - 26))
  else if n < 62 then Char.ofNat (48 + (n - 52))
  else if n = 62 then '-'
  else '_'

def digitValue (c : Char) : Option ℕ :=
  if 65 ≤ c.toNat ∧ c.toNat ≤ 90 then some (c.toNat - 65)
  else if 97 ≤ c.toNat ∧ c.toNat ≤ 122 then some (c.toNat - 97 + 26)
  else if 48 ≤ c.toNat ∧ c.toNat ≤ 57 then some (c.toNat - 48 + 52)
  else if c = '-' then some 62
  else if c = '_' then some 63
  else none

/-- The first digits of 24 bits. -/
def digits (n count : ℕ) : List Char :=
  (List.range count).map fun i => digit (n / 2 ^ (18 - 6 * i) % 64)

def encode : List UInt8 → List Char
  | a :: b :: c :: rest => digits ((a.toNat * 256 + b.toNat) * 256 + c.toNat) 4 ++ encode rest
  | [a, b] => digits ((a.toNat * 256 + b.toNat) * 256) 3
  | [a] => digits (a.toNat * 256 * 256) 2
  | [] => []

/-- The reader's loop: the bits that are not a byte yet, and how many they are. -/
def decodeFrom (acc bits : ℕ) : List Char → Option (List UInt8)
  | [] => if acc = 0 then some [] else none
  | c :: rest => do
    let v ← digitValue c
    let acc := acc * 64 + v
    let bits := bits + 6
    if 8 ≤ bits then
      let bytes ← decodeFrom (acc % 2 ^ (bits - 8)) (bits - 8) rest
      return UInt8.ofNat (acc / 2 ^ (bits - 8)) :: bytes
    else decodeFrom acc bits rest

def decode (t : List Char) : Option (List UInt8) :=
  if t.length % 4 = 1 then none else decodeFrom 0 0 t

/-! ## Digits -/

theorem digitValue_digit {n : ℕ} (h : n < 64) : digitValue (digit n) = some n := by
  have hall : ∀ m < 64, digitValue (digit m) = some m := by decide
  exact hall n h

theorem digit_of_digitValue {c : Char} {n : ℕ} (h : digitValue c = some n) :
    n < 64 ∧ digit n = c := by
  unfold digitValue at h
  split at h
  · next hc =>
    obtain rfl := Option.some.inj h
    refine ⟨by omega, ?_⟩
    rw [digit, if_pos (by omega), show 65 + (c.toNat - 65) = c.toNat by omega, Char.ofNat_toNat]
  · split at h
    · next hc =>
      obtain rfl := Option.some.inj h
      refine ⟨by omega, ?_⟩
      rw [digit, if_neg (by omega), if_pos (by omega),
        show 97 + (c.toNat - 97 + 26 - 26) = c.toNat by omega, Char.ofNat_toNat]
    · split at h
      · next hc =>
        obtain rfl := Option.some.inj h
        refine ⟨by omega, ?_⟩
        rw [digit, if_neg (by omega), if_neg (by omega), if_pos (by omega),
          show 48 + (c.toNat - 48 + 52 - 52) = c.toNat by omega, Char.ofNat_toNat]
      · split at h
        · next hc =>
          obtain rfl := Option.some.inj h
          exact ⟨by omega, hc.symm⟩
        · split at h
          · next hc =>
            obtain rfl := Option.some.inj h
            exact ⟨by omega, hc.symm⟩
          · cases h

theorem digits_four (n : ℕ) : digits n 4
    = [digit (n / 2 ^ 18 % 64), digit (n / 2 ^ 12 % 64), digit (n / 2 ^ 6 % 64), digit (n % 64)] := by
  simp [digits, List.range_succ]

theorem digits_three (n : ℕ) : digits n 3
    = [digit (n / 2 ^ 18 % 64), digit (n / 2 ^ 12 % 64), digit (n / 2 ^ 6 % 64)] := by
  simp [digits, List.range_succ]

theorem digits_two (n : ℕ) : digits n 2 = [digit (n / 2 ^ 18 % 64), digit (n / 2 ^ 12 % 64)] := by
  simp [digits, List.range_succ]

/-! ## Groups -/

section

variable {c₁ c₂ c₃ c₄ : Char} {d₁ d₂ d₃ d₄ : ℕ}

/-- Two digits give a byte, and the next two digits the other two bytes. -/
theorem decodeFrom_two (h₁ : digitValue c₁ = some d₁) (h₂ : digitValue c₂ = some d₂)
    (rest : List Char) : decodeFrom 0 0 (c₁ :: c₂ :: rest)
      = (decodeFrom (d₂ % 16) 4 rest).map (UInt8.ofNat (d₁ * 4 + d₂ / 16) :: ·) := by
  have hmod : (d₁ * 64 + d₂) % 2 ^ 4 = d₂ % 16 := by omega
  have hdiv : (d₁ * 64 + d₂) / 2 ^ 4 = d₁ * 4 + d₂ / 16 := by omega
  rw [decodeFrom, h₁]
  simp only [Option.bind_eq_bind, Option.bind_some, zero_mul, zero_add, Nat.reduceLeDiff, if_false]
  rw [decodeFrom, h₂]
  simp only [Option.bind_eq_bind, Option.bind_some, Nat.reduceAdd, Nat.reduceLeDiff, if_true,
    Nat.reduceSub, hmod, hdiv]
  rw [Option.map_eq_bind]
  rfl

theorem decodeFrom_third (h₃ : digitValue c₃ = some d₃) (acc : ℕ) (rest : List Char) :
    decodeFrom acc 4 (c₃ :: rest)
      = (decodeFrom (d₃ % 4) 2 rest).map (UInt8.ofNat (acc * 16 + d₃ / 4) :: ·) := by
  have hmod : (acc * 64 + d₃) % 2 ^ 2 = d₃ % 4 := by omega
  have hdiv : (acc * 64 + d₃) / 2 ^ 2 = acc * 16 + d₃ / 4 := by omega
  rw [decodeFrom, h₃]
  simp only [Option.bind_eq_bind, Option.bind_some, Nat.reduceAdd, Nat.reduceLeDiff, if_true,
    Nat.reduceSub, hmod, hdiv]
  rw [Option.map_eq_bind]
  rfl

theorem decodeFrom_fourth (h₄ : digitValue c₄ = some d₄) (acc : ℕ) (rest : List Char) :
    decodeFrom acc 2 (c₄ :: rest)
      = (decodeFrom 0 0 rest).map (UInt8.ofNat (acc * 64 + d₄) :: ·) := by
  rw [decodeFrom, h₄]
  simp only [Option.bind_eq_bind, Option.bind_some, Nat.reduceAdd, Nat.reduceLeDiff, if_true,
    Nat.reduceSub, pow_zero, Nat.mod_one, Nat.div_one]
  rw [Option.map_eq_bind]
  rfl

end

theorem toNat_ofNat {n : ℕ} (h : n < 256) : (UInt8.ofNat n).toNat = n := by
  rw [UInt8.toNat_ofNat', Nat.mod_eq_of_lt h]

theorem ofNat_eq {b : UInt8} {n : ℕ} (h : n = b.toNat) : UInt8.ofNat n = b := by
  rw [h, UInt8.ofNat_toNat]

/-- What is written is read. -/
theorem decodeFrom_encode (bytes : List UInt8) : decodeFrom 0 0 (encode bytes) = some bytes := by
  induction bytes using encode.induct with
  | case1 a b c rest ih =>
    have ha := a.toNat_lt
    have hb := b.toNat_lt
    have hc := c.toNat_lt
    rw [encode, digits_four]
    generalize hn : (a.toNat * 256 + b.toNat) * 256 + c.toNat = n
    simp only [List.cons_append, List.nil_append]
    rw [decodeFrom_two (digitValue_digit (by omega)) (digitValue_digit (by omega)),
      decodeFrom_third (digitValue_digit (by omega)),
      decodeFrom_fourth (digitValue_digit (by omega)), ih]
    simp only [Option.map_some]
    rw [@ofNat_eq a _ (by omega), @ofNat_eq b _ (by omega), @ofNat_eq c _ (by omega)]
  | case2 a b =>
    have ha := a.toNat_lt
    have hb := b.toNat_lt
    rw [encode, digits_three]
    generalize hn : (a.toNat * 256 + b.toNat) * 256 = n
    rw [decodeFrom_two (digitValue_digit (by omega)) (digitValue_digit (by omega)),
      decodeFrom_third (digitValue_digit (by omega))]
    rw [show n / 2 ^ 6 % 64 % 4 = 0 by omega]
    simp only [decodeFrom, if_true, Option.map_some]
    rw [@ofNat_eq a _ (by omega), @ofNat_eq b _ (by omega)]
  | case3 a =>
    have ha := a.toNat_lt
    rw [encode, digits_two]
    generalize hn : a.toNat * 256 * 256 = n
    rw [decodeFrom_two (digitValue_digit (by omega)) (digitValue_digit (by omega))]
    rw [show n / 2 ^ 12 % 64 % 16 = 0 by omega]
    simp only [decodeFrom, if_true, Option.map_some]
    rw [@ofNat_eq a _ (by omega)]
  | case4 => rfl

theorem length_digits (n count : ℕ) : (digits n count).length = count := by
  rw [digits, List.length_map, List.length_range]

theorem length_encode (bytes : List UInt8) :
    (encode bytes).length = (4 * bytes.length + 2) / 3 := by
  induction bytes using encode.induct with
  | case1 a b c rest ih =>
    rw [encode, List.length_append, length_digits, ih]
    simp only [List.length_cons]
    omega
  | case2 a b =>
    rw [encode, length_digits]
    simp only [List.length_cons, List.length_nil]
  | case3 a =>
    rw [encode, length_digits]
    simp only [List.length_cons, List.length_nil]
  | case4 => rfl

theorem decode_encode (bytes : List UInt8) : decode (encode bytes) = some bytes := by
  have hlen := length_encode bytes
  rw [decode, if_neg (by omega), decodeFrom_encode]

/-! ## What is read -/

theorem digitValue_of_decodeFrom {t : List Char} {acc bits : ℕ} {bytes : List UInt8}
    (h : decodeFrom acc bits t = some bytes) : ∀ c ∈ t, ∃ d, digitValue c = some d := by
  induction t generalizing acc bits bytes with
  | nil => exact nofun
  | cons c rest ih =>
    rw [decodeFrom] at h
    obtain ⟨d, hd, h⟩ := Option.bind_eq_some_iff.mp h
    have hrest : ∀ x ∈ rest, ∃ d, digitValue x = some d := by
      simp only at h
      split at h
      · obtain ⟨bytes', hbytes, -⟩ := Option.bind_eq_some_iff.mp h
        exact ih hbytes
      · exact ih h
    intro x hx
    rcases List.mem_cons.mp hx with rfl | hx
    · exact ⟨d, hd⟩
    · exact hrest x hx

theorem encode_of_decodeFrom : ∀ (t : List Char) {bytes : List UInt8}, t.length % 4 ≠ 1 →
    decodeFrom 0 0 t = some bytes → encode bytes = t
  | [], bytes, _, h => by
    cases h
    rfl
  | [c₁], bytes, hlen, h => absurd rfl hlen
  | [c₁, c₂], bytes, hlen, h => by
    have hdigits := digitValue_of_decodeFrom h
    obtain ⟨d₁, h₁⟩ := hdigits c₁ (by simp)
    obtain ⟨d₂, h₂⟩ := hdigits c₂ (by simp)
    obtain ⟨hd₁, hc₁⟩ := digit_of_digitValue h₁
    obtain ⟨hd₂, hc₂⟩ := digit_of_digitValue h₂
    rw [decodeFrom_two h₁ h₂] at h
    obtain ⟨bytes', hbytes, rfl⟩ := Option.map_eq_some_iff.mp h
    rw [decodeFrom] at hbytes
    split at hbytes
    · next hzero =>
      cases hbytes
      rw [encode, digits_two, toNat_ofNat (by omega)]
      rw [show (d₁ * 4 + d₂ / 16) * 256 * 256 / 2 ^ 18 % 64 = d₁ by omega,
        show (d₁ * 4 + d₂ / 16) * 256 * 256 / 2 ^ 12 % 64 = d₂ by omega, hc₁, hc₂]
    · cases hbytes
  | [c₁, c₂, c₃], bytes, hlen, h => by
    have hdigits := digitValue_of_decodeFrom h
    obtain ⟨d₁, h₁⟩ := hdigits c₁ (by simp)
    obtain ⟨d₂, h₂⟩ := hdigits c₂ (by simp)
    obtain ⟨d₃, h₃⟩ := hdigits c₃ (by simp)
    obtain ⟨hd₁, hc₁⟩ := digit_of_digitValue h₁
    obtain ⟨hd₂, hc₂⟩ := digit_of_digitValue h₂
    obtain ⟨hd₃, hc₃⟩ := digit_of_digitValue h₃
    rw [decodeFrom_two h₁ h₂, decodeFrom_third h₃] at h
    obtain ⟨second, hsecond, rfl⟩ := Option.map_eq_some_iff.mp h
    obtain ⟨bytes', hbytes, rfl⟩ := Option.map_eq_some_iff.mp hsecond
    rw [decodeFrom] at hbytes
    split at hbytes
    · next hzero =>
      cases hbytes
      rw [encode, digits_three, toNat_ofNat (by omega), toNat_ofNat (by omega)]
      generalize hn : ((d₁ * 4 + d₂ / 16) * 256 + (d₂ % 16 * 16 + d₃ / 4)) * 256 = n
      rw [show n / 2 ^ 18 % 64 = d₁ by omega, show n / 2 ^ 12 % 64 = d₂ by omega,
        show n / 2 ^ 6 % 64 = d₃ by omega, hc₁, hc₂, hc₃]
    · cases hbytes
  | c₁ :: c₂ :: c₃ :: c₄ :: rest, bytes, hlen, h => by
    have hdigits := digitValue_of_decodeFrom h
    obtain ⟨d₁, h₁⟩ := hdigits c₁ (by simp)
    obtain ⟨d₂, h₂⟩ := hdigits c₂ (by simp)
    obtain ⟨d₃, h₃⟩ := hdigits c₃ (by simp)
    obtain ⟨d₄, h₄⟩ := hdigits c₄ (by simp)
    obtain ⟨hd₁, hc₁⟩ := digit_of_digitValue h₁
    obtain ⟨hd₂, hc₂⟩ := digit_of_digitValue h₂
    obtain ⟨hd₃, hc₃⟩ := digit_of_digitValue h₃
    obtain ⟨hd₄, hc₄⟩ := digit_of_digitValue h₄
    rw [decodeFrom_two h₁ h₂, decodeFrom_third h₃, decodeFrom_fourth h₄] at h
    obtain ⟨second, hsecond, rfl⟩ := Option.map_eq_some_iff.mp h
    obtain ⟨third, hthird, rfl⟩ := Option.map_eq_some_iff.mp hsecond
    obtain ⟨bytes', hbytes, rfl⟩ := Option.map_eq_some_iff.mp hthird
    have hrest := encode_of_decodeFrom rest (by simp only [List.length_cons] at hlen; omega) hbytes
    rw [encode, digits_four, toNat_ofNat (by omega), toNat_ofNat (by omega),
      toNat_ofNat (by omega), hrest]
    generalize hn : ((d₁ * 4 + d₂ / 16) * 256 + (d₂ % 16 * 16 + d₃ / 4)) * 256 + (d₃ % 4 * 64 + d₄)
      = n
    rw [show n / 2 ^ 18 % 64 = d₁ by omega, show n / 2 ^ 12 % 64 = d₂ by omega,
      show n / 2 ^ 6 % 64 = d₃ by omega, show n % 64 = d₄ by omega, hc₁, hc₂, hc₃, hc₄]
    rfl

/-- **A text that is read** is the one that is written for its bytes. -/
theorem encode_of_decode {t : List Char} {bytes : List UInt8} (h : decode t = some bytes) :
    encode bytes = t := by
  rw [decode] at h
  split at h
  · cases h
  · next hlen => exact encode_of_decodeFrom t hlen h

/-- The digits of a text are none of these: no dot, no space. -/
theorem isSome_digitValue_of_mem_encode {bytes : List UInt8} {c : Char} (h : c ∈ encode bytes) :
    (digitValue c).isSome = true := by
  obtain ⟨d, hd⟩ := digitValue_of_decodeFrom (decodeFrom_encode bytes) c h
  rw [hd]
  rfl

end Base64
