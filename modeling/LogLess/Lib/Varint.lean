import Mathlib.Data.List.Basic
import Mathlib.Tactic

/-!
# Numbers of seven bits a byte

A number is written from its low end, seven bits in each byte, and every byte but the last has its
high bit set. `value` is what the bytes denote, however many there are; `after` is what follows
them. A reader that stops after some bytes reads the numbers that `ends` in time.
-/

namespace Varint

/-- The number at the beginning of the bytes. -/
def value : List UInt8 → ℕ
  | [] => 0
  | b :: bs => if b.toNat < 128 then b.toNat else b.toNat % 128 + 128 * value bs

/-- What follows the number. -/
def after : List UInt8 → List UInt8
  | [] => []
  | b :: bs => if b.toNat < 128 then bs else after bs

/-- The number takes at most so many bytes. -/
def ends : ℕ → List UInt8 → Bool
  | 0, _ => false
  | _ + 1, [] => false
  | rounds + 1, b :: bs => decide (b.toNat < 128) || ends rounds bs

/-- The shortest bytes of a number, at most so many of them. -/
def encode : ℕ → ℕ → List UInt8
  | 0, _ => []
  | rounds + 1, n =>
    if n < 128 then [UInt8.ofNat n] else UInt8.ofNat (n % 128 + 128) :: encode rounds (n / 128)

theorem encode_spec {rounds n : ℕ} (h : n < 128 ^ rounds) (hpos : 0 < rounds) (rest : List UInt8) :
    ends rounds (encode rounds n ++ rest) = true ∧ value (encode rounds n ++ rest) = n ∧
      after (encode rounds n ++ rest) = rest := by
  induction rounds generalizing n with
  | zero => omega
  | succ rounds ih =>
    rw [encode]
    split
    · next hlt =>
      have hbyte : (UInt8.ofNat n).toNat = n := by
        rw [UInt8.toNat_ofNat', Nat.mod_eq_of_lt (by omega)]
      rw [List.singleton_append, ends, value, after, hbyte, if_pos hlt, if_pos hlt,
        decide_eq_true hlt]
      exact ⟨rfl, rfl, rfl⟩
    · next hge =>
      have hbyte : (UInt8.ofNat (n % 128 + 128)).toNat = n % 128 + 128 := by
        rw [UInt8.toNat_ofNat', Nat.mod_eq_of_lt (by omega)]
      have hdiv : n / 128 < 128 ^ rounds := by
        rw [Nat.div_lt_iff_lt_mul (by decide), ← Nat.pow_succ]
        exact h
      have hrounds : 0 < rounds := by
        by_contra hzero
        rw [Nat.eq_zero_of_not_pos hzero, pow_zero] at hdiv
        omega
      obtain ⟨hends, hvalue, hafter⟩ := ih hdiv hrounds
      rw [List.cons_append, ends, value, after, hbyte, if_neg (by omega), if_neg (by omega), hends,
        hvalue, hafter, Bool.or_true]
      exact ⟨rfl, by omega, rfl⟩

/-- A number that ends takes at least one byte. -/
theorem length_after {rounds : ℕ} {bytes : List UInt8} (h : ends rounds bytes = true) :
    (after bytes).length < bytes.length := by
  induction bytes generalizing rounds with
  | nil => cases rounds <;> cases h
  | cons b bs ih =>
    cases rounds with
    | zero => cases h
    | succ rounds =>
      rw [after, List.length_cons]
      split
      · omega
      · next hge =>
        rw [ends, decide_eq_false hge, Bool.false_or] at h
        have := ih h
        omega

end Varint
