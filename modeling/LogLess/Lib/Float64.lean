import Mathlib.Data.Int.Log
import Mathlib.Data.Rat.Floor
import Mathlib.Tactic

/-!
# Rounding to double precision

The value a nonnegative rational has as an `f64`: 53 significant bits, ties to even.
Subnormal numbers and overflow are left out, so this is for values between `2 ^ (-1022)`
and `2 ^ 1024`, and zero. A quotient of two counts is compared through `nearest_mono` and
`ratio_le_one`. `parse` reads the text of any float.
-/

namespace Float64

/-- The integer nearest to `q`, the even one of two. -/
def roundEven (q : ℚ) : ℤ :=
  let n := ⌊q⌋
  if q - n < 1 / 2 then n
  else if 1 / 2 < q - n then n + 1
  else if n % 2 = 0 then n
  else n + 1

/-- The distance between two neighbouring floats where `q` lies. -/
def ulp (q : ℚ) : ℚ := 2 ^ (Int.log 2 q - 52)

/-- The float nearest to `q`. -/
def nearest (q : ℚ) : ℚ := roundEven (q / ulp q) * ulp q

/-- `a as f64 / b as f64`. -/
def ratio (a b : ℕ) : ℚ := nearest (nearest a / nearest b)

/-- A float as a comparison sees it: the two zeros are one. -/
inductive F64 where
  | nan
  | negInf
  | posInf
  | finite (q : ℚ)

/-- `x >= t`, which is false if `t` is not a number. -/
def F64.le (t : F64) (x : ℚ) : Bool :=
  match t with
  | .nan => false
  | .negInf => true
  | .posInf => false
  | .finite q => q ≤ x

/-- `x.ceil() as u64`, which saturates. -/
def F64.ceilU64 : F64 → ℕ
  | .nan => 0
  | .negInf => 0
  | .posInf => 2 ^ 64 - 1
  | .finite q => min (2 ^ 64 - 1) ⌈q⌉.toNat

theorem F64.le_trans {t : F64} {x y : ℚ} (h : t.le x = true) (hxy : x ≤ y) : t.le y = true := by
  cases t with
  | nan => cases h
  | negInf => rfl
  | posInf => cases h
  | finite q =>
    simp only [F64.le, decide_eq_true_eq] at h ⊢
    exact h.trans hxy

theorem floor_le_roundEven (q : ℚ) : ⌊q⌋ ≤ roundEven q := by
  simp only [roundEven]
  split_ifs <;> omega

theorem roundEven_le_floor_add_one (q : ℚ) : roundEven q ≤ ⌊q⌋ + 1 := by
  simp only [roundEven]
  split_ifs <;> omega

theorem roundEven_intCast (n : ℤ) : roundEven n = n := by simp [roundEven]

theorem roundEven_mono {q r : ℚ} (h : q ≤ r) : roundEven q ≤ roundEven r := by
  have hfloor : ⌊q⌋ ≤ ⌊r⌋ := Int.floor_mono h
  rcases hfloor.lt_or_eq with hlt | heq
  · have hq := roundEven_le_floor_add_one q
    have hr := floor_le_roundEven r
    omega
  · -- one floor: the larger fraction is rounded up if the smaller one is
    have hfract : q - ⌊q⌋ ≤ r - ⌊q⌋ := by linarith
    simp only [roundEven, ← heq]
    split_ifs <;> first | omega | (exfalso; linarith)

theorem ulp_pos (q : ℚ) : 0 < ulp q := by
  rw [ulp]
  positivity

theorem two_pow_div_ulp (q : ℚ) (k : ℤ) :
    (2 : ℚ) ^ (Int.log 2 q + k) / ulp q = 2 ^ (52 + k) := by
  rw [ulp, ← zpow_sub₀ (by norm_num)]
  congr 1
  ring

theorem two_pow_le_nearest {q : ℚ} (hq : 0 < q) : (2 : ℚ) ^ Int.log 2 q ≤ nearest q := by
  have hlog : (2 : ℚ) ^ Int.log 2 q ≤ q := by exact_mod_cast Int.zpow_log_le_self (by norm_num) hq
  have hscaled : ((2 ^ 52 : ℤ) : ℚ) ≤ q / ulp q := by
    have h := two_pow_div_ulp q 0
    rw [add_zero] at h
    have hle : (2 : ℚ) ^ Int.log 2 q / ulp q ≤ q / ulp q :=
      div_le_div_of_nonneg_right hlog (ulp_pos q).le
    rw [h] at hle
    norm_num at hle ⊢
    exact hle
  have hround : (2 ^ 52 : ℤ) ≤ roundEven (q / ulp q) := by
    rw [← roundEven_intCast (2 ^ 52)]
    exact roundEven_mono hscaled
  have hcast : ((2 ^ 52 : ℤ) : ℚ) ≤ roundEven (q / ulp q) := by exact_mod_cast hround
  calc (2 : ℚ) ^ Int.log 2 q = (2 ^ 52 : ℤ) * ulp q := by
        have h := two_pow_div_ulp q 0
        rw [add_zero, div_eq_iff (ulp_pos q).ne'] at h
        rw [h]
        norm_num
    _ ≤ nearest q := mul_le_mul_of_nonneg_right hcast (ulp_pos q).le

theorem nearest_le_two_pow (q : ℚ) : nearest q ≤ 2 ^ (Int.log 2 q + 1) := by
  have hlog : q < (2 : ℚ) ^ (Int.log 2 q + 1) := by
    exact_mod_cast Int.lt_zpow_succ_log_self (by norm_num) q
  have hscaled : q / ulp q ≤ ((2 ^ 53 : ℤ) : ℚ) := by
    have hle : q / ulp q ≤ 2 ^ (Int.log 2 q + 1) / ulp q :=
      div_le_div_of_nonneg_right hlog.le (ulp_pos q).le
    rw [two_pow_div_ulp q 1] at hle
    norm_num at hle ⊢
    exact hle
  have hround : roundEven (q / ulp q) ≤ 2 ^ 53 := by
    rw [← roundEven_intCast (2 ^ 53)]
    exact roundEven_mono hscaled
  have hcast : (roundEven (q / ulp q) : ℚ) ≤ (2 ^ 53 : ℤ) := by exact_mod_cast hround
  calc nearest q ≤ (2 ^ 53 : ℤ) * ulp q := mul_le_mul_of_nonneg_right hcast (ulp_pos q).le
    _ = 2 ^ (Int.log 2 q + 1) := by
        have h := two_pow_div_ulp q 1
        rw [div_eq_iff (ulp_pos q).ne'] at h
        rw [h]
        norm_num

theorem nearest_pos {q : ℚ} (hq : 0 < q) : 0 < nearest q :=
  lt_of_lt_of_le (by positivity) (two_pow_le_nearest hq)

@[simp] theorem nearest_zero : nearest 0 = 0 := by simp [nearest, roundEven]

theorem nearest_one : nearest 1 = 1 := by
  have hulp : ulp 1 = 2 ^ (-52 : ℤ) := by simp [ulp]
  have hscaled : (1 : ℚ) / ulp 1 = ((2 ^ 52 : ℤ) : ℚ) := by
    rw [hulp]
    norm_num
  rw [nearest, hscaled, roundEven_intCast, hulp]
  norm_num

theorem nearest_mono {q r : ℚ} (hq : 0 < q) (h : q ≤ r) : nearest q ≤ nearest r := by
  have hr : 0 < r := hq.trans_le h
  have hlog : Int.log 2 q ≤ Int.log 2 r := Int.log_mono_right hq h
  rcases hlog.lt_or_eq with hlt | heq
  · -- a power of two lies between the two
    calc nearest q ≤ 2 ^ (Int.log 2 q + 1) := nearest_le_two_pow q
      _ ≤ 2 ^ Int.log 2 r := zpow_le_zpow_right₀ (by norm_num) hlt
      _ ≤ nearest r := two_pow_le_nearest hr
  · have hulp : ulp q = ulp r := by rw [ulp, ulp, heq]
    rw [nearest, nearest, ← hulp]
    have hround : roundEven (q / ulp q) ≤ roundEven (r / ulp q) :=
      roundEven_mono (div_le_div_of_nonneg_right h (ulp_pos q).le)
    exact mul_le_mul_of_nonneg_right (by exact_mod_cast hround) (ulp_pos q).le

theorem ratio_self {n : ℕ} (hn : 0 < n) : ratio n n = 1 := by
  have hpos : 0 < nearest (n : ℚ) := nearest_pos (by exact_mod_cast hn)
  rw [ratio, div_self hpos.ne', nearest_one]

theorem ratio_le_one {a b : ℕ} (h : a ≤ b) : ratio a b ≤ 1 := by
  rcases Nat.eq_zero_or_pos a with rfl | ha
  · simp [ratio]
  · have hpos : 0 < nearest (a : ℚ) := nearest_pos (by exact_mod_cast ha)
    have hmono : nearest (a : ℚ) ≤ nearest (b : ℚ) :=
      nearest_mono (by exact_mod_cast ha) (by exact_mod_cast h)
    have hbpos : 0 < nearest (b : ℚ) := hpos.trans_le hmono
    have hle : nearest (a : ℚ) / nearest (b : ℚ) ≤ 1 := (div_le_one hbpos).mpr hmono
    calc ratio a b ≤ nearest 1 := nearest_mono (div_pos hpos hbpos) hle
      _ = 1 := nearest_one

/-! ## Bits -/

/-- The number that finite bits stand for. -/
def value (bits : UInt64) : ℚ :=
  let sign : ℚ := if bits.toNat / 2 ^ 63 = 0 then 1 else -1
  let exponent : ℕ := bits.toNat / 2 ^ 52 % 2 ^ 11
  let fraction : ℕ := bits.toNat % 2 ^ 52
  if exponent = 0 then sign * (fraction * 2 ^ (-1074 : ℤ))
  else sign * ((2 ^ 52 + fraction) * 2 ^ ((exponent : ℤ) - 1075))

/-- `v as f64` for an integer of at most 53 bits: sign, exponent and fraction. -/
def ofInt (v : ℤ) : UInt64 :=
  let n := v.natAbs
  if n = 0 then 0
  else
    let sign := if v < 0 then 2 ^ 63 else 0
    UInt64.ofNat (sign + (1023 + n.log2) * 2 ^ 52 + (n * 2 ^ 52 / 2 ^ n.log2 - 2 ^ 52))

/-- The leading 53 bits of a number that has no more. -/
theorem leading_bits {n : ℕ} (hpos : n ≠ 0) (h : n ≤ 2 ^ 53) :
    n.log2 ≤ 53 ∧ n * 2 ^ 52 / 2 ^ n.log2 * 2 ^ n.log2 = n * 2 ^ 52 ∧
      2 ^ 52 ≤ n * 2 ^ 52 / 2 ^ n.log2 ∧ n * 2 ^ 52 / 2 ^ n.log2 < 2 ^ 53 := by
  have hlow : 2 ^ n.log2 ≤ n := Nat.log2_self_le hpos
  have hhigh : n < 2 ^ (n.log2 + 1) := Nat.lt_log2_self
  have hk : n.log2 ≤ 53 := by
    by_contra hcon
    have : 2 ^ 54 ≤ 2 ^ n.log2 := Nat.pow_le_pow_right (by omega) (by omega)
    omega
  have hdvd : 2 ^ n.log2 ∣ n * 2 ^ 52 := by
    by_cases h53 : n.log2 = 53
    · have hn : n = 2 ^ 53 := by
        rw [h53] at hlow
        omega
      rw [h53, hn]
      exact Dvd.intro _ rfl
    · exact Dvd.dvd.mul_left (pow_dvd_pow 2 (by omega)) n
  have hpow : 0 < 2 ^ n.log2 := Nat.pow_pos (by omega)
  refine ⟨hk, Nat.div_mul_cancel hdvd, ?_, ?_⟩
  · rw [Nat.le_div_iff_mul_le hpow, Nat.mul_comm]
    exact Nat.mul_le_mul_right _ hlow
  · rw [Nat.div_lt_iff_lt_mul hpow]
    have hsucc : 2 ^ (n.log2 + 1) = 2 * 2 ^ n.log2 := by rw [pow_succ, Nat.mul_comm]
    omega

/-- The conversion is exact. -/
theorem value_ofInt {v : ℤ} (h : v.natAbs ≤ 2 ^ 53) : value (ofInt v) = v := by
  by_cases hzero : v.natAbs = 0
  · obtain rfl : v = 0 := Int.natAbs_eq_zero.mp hzero
    simp [value, ofInt]
  · obtain ⟨hk, hq, hlow, hhigh⟩ := leading_bits hzero h
    generalize hlead : v.natAbs * 2 ^ 52 / 2 ^ v.natAbs.log2 = q at hq hlow hhigh
    generalize hlog : v.natAbs.log2 = k at hk hq
    obtain ⟨sign, hsign⟩ : ∃ sign, (if v < 0 then 2 ^ 63 else 0) = sign := ⟨_, rfl⟩
    have hsign' : sign = 0 ∧ 0 ≤ v ∨ sign = 2 ^ 63 ∧ v < 0 := by
      rw [← hsign]
      split <;> omega
    have hbits : (ofInt v).toNat = sign + (1023 + k) * 2 ^ 52 + (q - 2 ^ 52) := by
      simp only [ofInt, hzero, if_false, hlog, hsign]
      rw [hlog] at hlead
      rw [hlead, UInt64.toNat_ofNat', Nat.mod_eq_of_lt (by omega)]
    have hexp : (ofInt v).toNat / 2 ^ 52 % 2 ^ 11 = 1023 + k := by omega
    have hfrac : (ofInt v).toNat % 2 ^ 52 = q - 2 ^ 52 := by omega
    have hmag : (2 ^ 52 + ((q - 2 ^ 52 : ℕ) : ℚ)) * 2 ^ (((1023 + k : ℕ) : ℤ) - 1075)
        = v.natAbs := by
      have hcast : (2 ^ 52 + ((q - 2 ^ 52 : ℕ) : ℚ)) = q := by
        rw [Nat.cast_sub hlow]
        push_cast
        ring
      have hpow : (2 : ℚ) ^ (((1023 + k : ℕ) : ℤ) - 1075) = 2 ^ k / 2 ^ 52 := by
        rw [show ((1023 + k : ℕ) : ℤ) - 1075 = (k : ℤ) - (52 : ℕ) by push_cast; ring,
          zpow_sub₀ (by norm_num), zpow_natCast, zpow_natCast]
      have hqk : (q : ℚ) * 2 ^ k = v.natAbs * 2 ^ 52 := by exact_mod_cast hq
      rw [hcast, hpow, mul_div_assoc', hqk]
      field_simp
    simp only [value, hexp, hfrac]
    rw [if_neg (by omega), hmag]
    rcases hsign' with ⟨hs, hv⟩ | ⟨hs, hv⟩
    · rw [if_pos (by omega), one_mul]
      have habs : (v.natAbs : ℤ) = v := Int.natAbs_of_nonneg hv
      rw [← Int.cast_natCast, habs]
    · rw [if_neg (by omega)]
      have habs : (v.natAbs : ℤ) = -v := by omega
      rw [← Int.cast_natCast, habs, Int.cast_neg]
      ring

/-! ## Reading -/

/-- The float nearest to a nonnegative rational, subnormals and overflow included. -/
def ofRat (negative : Bool) (q : ℚ) : F64 :=
  let spacing := max (ulp q) (2 ^ (-1074 : ℤ))
  let r := if q = 0 then 0 else roundEven (q / spacing) * spacing
  if 2 ^ 1024 ≤ r then if negative then .negInf else .posInf
  else .finite (if negative then -r else r)

/-- A sign and the rest. -/
def takeSign : List Char → Bool × List Char
  | [] => (false, [])
  | c :: cs => if c = '-' then (true, cs) else if c = '+' then (false, cs) else (false, c :: cs)

def parseExponent (t : List Char) : Option ℤ :=
  let (negative, digits) := takeSign t
  if digits.isEmpty || !digits.all Char.isDigit then none
  else
    let n : ℤ := Nat.ofDigitChars 10 digits 0
    some (if negative then -n else n)

/-- Digits with a point among them or not, then an exponent or none. -/
def parseDecimal (t : List Char) : Option ℚ :=
  let whole := t.takeWhile Char.isDigit
  let rest := t.dropWhile Char.isDigit
  let fraction := if rest.head? = some '.' then rest.tail.takeWhile Char.isDigit else []
  let rest := if rest.head? = some '.' then rest.tail.dropWhile Char.isDigit else rest
  if whole.isEmpty && fraction.isEmpty then none
  else
    let digits : ℚ := Nat.ofDigitChars 10 (whole ++ fraction) 0
    let exponent :=
      match rest with
      | [] => some 0
      | c :: cs => if c = 'e' || c = 'E' then parseExponent cs else none
    exponent.map fun e : ℤ => digits * 10 ^ (e - fraction.length)

/-- `str::parse::<f64>`. -/
def parse (t : List Char) : Option F64 :=
  let (negative, t) := takeSign t
  let word := t.map Char.toLower
  if word = "inf".toList || word = "infinity".toList then
    some (if negative then .negInf else .posInf)
  else if word = "nan".toList then some .nan
  else (parseDecimal t).map (ofRat negative)

example : (parse "1.5e1".toList).map F64.ceilU64 = some 15 := by decide +kernel

end Float64
