import LogLess.Lib.Base64
import LogLess.Lib.Frames
import LogLess.Lib.Utf8
import LogLess.Model

/-!
# Base64url as the code reads and writes it

`b64url` reads the bytes of a text with a bit accumulator of 32 bits, and `b64` writes three bytes
at a time. Both are the functions of `Base64`, so what is read is what is written.
-/

namespace LogLess.Auth

open Frames (Bytes)

/-! ## Reading -/

/-- The six bits of a byte of the alphabet. -/
def b64urlValue (b : UInt8) : Option ℕ :=
  if 65 ≤ b ∧ b ≤ 90 then some (b - 65).toNat
  else if 97 ≤ b ∧ b ≤ 122 then some (b - 97 + 26).toNat
  else if 48 ≤ b ∧ b ≤ 57 then some (b - 48 + 52).toNat
  else if b = 45 then some 62
  else if b = 95 then some 63
  else none

/-- The loop over the bytes: an accumulator of 32 bits, and how many bits of it are no byte yet. -/
def b64urlLoop (acc bits : ℕ) : Bytes → Option Bytes
  | [] => if acc = 0 then some [] else none
  | b :: rest => do
    let v ← b64urlValue b
    let acc := (acc <<< 6) % 2 ^ 32 ||| v
    let bits := bits + 6
    if 8 ≤ bits then
      let bits := bits - 8
      let bytes ← b64urlLoop (acc &&& ((1 <<< bits) - 1)) bits rest
      return UInt8.ofNat (acc >>> bits) :: bytes
    else b64urlLoop acc bits rest

def b64url (s : Text) : Option Bytes :=
  let bytes := Utf8.encode s
  if bytes.length % 4 = 1 then none else b64urlLoop 0 0 bytes

/-! ## Writing -/

def alphabet : Text := "ABCDEFGHIJKLMNOPQRSTUVWXYZabcdefghijklmnopqrstuvwxyz0123456789-_".toList

/-- The digits of up to three bytes, one more than they are. -/
def b64Chunk (chunk : Bytes) : Text :=
  let bits := chunk.foldl (fun acc b => (acc <<< 8) % 2 ^ 32 ||| b.toNat) 0
  let n := (bits <<< (8 * (3 - chunk.length))) % 2 ^ 32
  (List.range (chunk.length + 1)).map fun i => alphabet.getD ((n >>> (18 - 6 * i)) &&& 63) 'A'

def b64 : Bytes → Text
  | a :: b :: c :: rest => b64Chunk [a, b, c] ++ b64 rest
  | [a, b] => b64Chunk [a, b]
  | [a] => b64Chunk [a]
  | [] => []

/-! ## The bits as numbers -/

theorem shiftLeft_or {acc v k : ℕ} (hv : v < 2 ^ k) (hacc : acc * 2 ^ k < 2 ^ 32) :
    (acc <<< k) % 2 ^ 32 ||| v = acc * 2 ^ k + v := by
  rw [Nat.shiftLeft_eq, Nat.mod_eq_of_lt hacc, ← Nat.shiftLeft_eq,
    ← Nat.shiftLeft_add_eq_or_of_lt hv, Nat.shiftLeft_eq]

theorem and_mask (n k : ℕ) : n &&& ((1 <<< k) - 1) = n % 2 ^ k := by
  rw [Nat.one_shiftLeft, Nat.and_two_pow_sub_one_eq_mod]

/-- A character of ASCII is its byte. -/
theorem encode_cons_ascii {c : Char} (hc : c.toNat < 128) (t : Text) :
    Utf8.encode (c :: t) = UInt8.ofNat c.toNat :: Utf8.encode t := by
  have hsize : c.utf8Size = 1 := Char.utf8Size_eq_one_iff.mpr (by
    rw [UInt32.le_iff_toNat_le]
    exact Nat.lt_succ_iff.mp hc)
  rw [Utf8.encode, List.flatMap_cons, String.utf8EncodeChar_eq_singleton hsize]
  rfl

theorem b64urlValue_ofNat : ∀ n < 256, b64urlValue (UInt8.ofNat n)
    = if n < 128 then Base64.digitValue (Char.ofNat n) else none := by
  decide +kernel

theorem b64urlValue_ascii {c : Char} (hc : c.toNat < 128) :
    b64urlValue (UInt8.ofNat c.toNat) = Base64.digitValue c := by
  rw [b64urlValue_ofNat c.toNat (by omega), if_pos hc, Char.ofNat_toNat]

theorem b64urlValue_of_le {b : UInt8} (hb : 128 ≤ b.toNat) : b64urlValue b = none := by
  have hvalue := b64urlValue_ofNat b.toNat b.toNat_lt
  rw [UInt8.ofNat_toNat, if_neg (by omega)] at hvalue
  exact hvalue

theorem digitValue_of_le {c : Char} (hc : 128 ≤ c.toNat) : Base64.digitValue c = none := by
  have hdash : c ≠ '-' ∧ c ≠ '_' := by
    refine ⟨?_, ?_⟩
    all_goals
      rintro rfl
      exact absurd hc (by decide)
  rw [Base64.digitValue, if_neg (by omega), if_neg (by omega), if_neg (by omega),
    if_neg hdash.1, if_neg hdash.2]

/-- The bytes of another character begin with one that is not of the alphabet. -/
theorem encode_cons_of_le {c : Char} (hc : 128 ≤ c.toNat) (t : Text) :
    ∃ b rest, Utf8.encode (c :: t) = b :: rest ∧ b64urlValue b = none := by
  cases hbytes : String.utf8EncodeChar c with
  | nil =>
    have hlength := String.length_utf8EncodeChar c
    have hpos := c.utf8Size_pos
    rw [hbytes, List.length_nil] at hlength
    omega
  | cons b rest =>
    refine ⟨b, rest ++ Utf8.encode t, ?_, ?_⟩
    · rw [Utf8.encode, List.flatMap_cons, hbytes]
      rfl
    · have hmem : b ∈ String.utf8EncodeChar c := by
        rw [hbytes]
        exact List.mem_cons_self
      have hle : 128 ≤ b.toNat := by
        rcases Utf8.le_of_mem_utf8EncodeChar hmem with heq | hle
        · omega
        · exact hle
      exact b64urlValue_of_le hle

/-! ## The functions of the library -/

/-- The accumulator has no more bits than are counted, so nothing is shifted out of it. -/
theorem b64urlLoop_eq {acc bits : ℕ} (t : Text) (hacc : acc < 2 ^ bits) (hbits : bits ≤ 6)
    (heven : bits % 2 = 0) : b64urlLoop acc bits (Utf8.encode t) = Base64.decodeFrom acc bits t := by
  induction t generalizing acc bits with
  | nil => rfl
  | cons c t ih =>
    by_cases hc : c.toNat < 128
    · rw [encode_cons_ascii hc, b64urlLoop, b64urlValue_ascii hc, Base64.decodeFrom]
      cases hd : Base64.digitValue c with
      | none => rfl
      | some d =>
        have hdlt := (Base64.digit_of_digitValue hd).1
        have hsmall : acc < 2 ^ 6 := hacc.trans_le (Nat.pow_le_pow_right (by decide) hbits)
        simp only [Option.bind_eq_bind, Option.bind_some,
          @shiftLeft_or acc d 6 hdlt (by omega), and_mask, Nat.shiftRight_eq_div_pow]
        by_cases hfull : 8 ≤ bits + 6
        · rw [if_pos hfull, if_pos hfull]
          have hmod : (acc * 2 ^ 6 + d) % 2 ^ (bits + 6 - 8) < 2 ^ (bits + 6 - 8) :=
            Nat.mod_lt _ (Nat.two_pow_pos _)
          rw [ih hmod (by omega) (by omega)]
          rfl
        · rw [if_neg hfull, if_neg hfull]
          apply ih
          · have hpow : 2 ^ (bits + 6) = 2 ^ bits * 2 ^ 6 := Nat.pow_add 2 bits 6
            omega
          · omega
          · omega
    · obtain ⟨b, rest, hbytes, hnone⟩ := encode_cons_of_le (not_lt.mp hc) t
      rw [hbytes, b64urlLoop, hnone, Base64.decodeFrom, digitValue_of_le (not_lt.mp hc)]
      rfl

theorem b64url_eq (s : Text) : b64url s = Base64.decode s := by
  have hloop := b64urlLoop_eq s (by decide : 0 < 2 ^ 0) (by decide) rfl
  rw [b64url, Base64.decode]
  by_cases hascii : ∀ c ∈ s, c.toNat < 128
  · have hlength : (Utf8.encode s).length = s.length := by
      have hone : ∀ c ∈ s, c.utf8Size = 1 := by
        intro c hc
        rw [Char.utf8Size_eq_one_iff, UInt32.le_iff_toNat_le]
        exact Nat.lt_succ_iff.mp (hascii c hc)
      rw [Utf8.length_encode, List.map_congr_left hone, List.map_const', List.sum_replicate,
        smul_eq_mul, Nat.mul_one]
    simp only [hlength, hloop]
  · -- a character beyond ASCII is refused, whatever the length
    push Not at hascii
    obtain ⟨c, hc, hle⟩ := hascii
    have hnone : Base64.decodeFrom 0 0 s = none := by
      rw [Option.eq_none_iff_forall_ne_some]
      intro bytes h
      obtain ⟨d, hd⟩ := Base64.digitValue_of_decodeFrom h c hc
      rw [digitValue_of_le hle] at hd
      cases hd
    simp only [hloop, hnone, ite_self]

theorem alphabet_eq : ∀ n < 64, alphabet.getD n 'A' = Base64.digit n := by
  decide +kernel

/-- A digit of a chunk. -/
theorem digit_eq (n k : ℕ) :
    alphabet.getD ((n >>> k) &&& 63) 'A' = Base64.digit (n / 2 ^ k % 64) := by
  have hmask : (n >>> k) &&& 63 = n / 2 ^ k % 64 := by
    rw [Nat.shiftRight_eq_div_pow]
    exact Nat.and_two_pow_sub_one_eq_mod _ 6
  rw [hmask]
  exact alphabet_eq _ (Nat.mod_lt _ (by decide))

theorem b64Chunk_eq {chunk : Bytes} {n : ℕ}
    (hn : (chunk.foldl (fun acc b => (acc <<< 8) % 2 ^ 32 ||| b.toNat) 0
      <<< (8 * (3 - chunk.length))) % 2 ^ 32 = n) :
    b64Chunk chunk = Base64.digits n (chunk.length + 1) := by
  rw [b64Chunk, hn, Base64.digits]
  apply List.map_congr_left
  intro i _
  exact digit_eq n (18 - 6 * i)

theorem b64_eq (bytes : Bytes) : b64 bytes = Base64.encode bytes := by
  have hor : ∀ {acc v : ℕ}, v < 256 → acc < 2 ^ 24 →
      (acc <<< 8) % 2 ^ 32 ||| v = acc * 256 + v :=
    fun hv hacc => shiftLeft_or hv (by omega)
  induction bytes using b64.induct with
  | case1 a b c rest ih =>
    have ha := a.toNat_lt
    have hb := b.toNat_lt
    have hc := c.toNat_lt
    rw [b64, ih, Base64.encode]
    congr 1
    apply b64Chunk_eq
    simp only [List.foldl_cons, List.foldl_nil, List.length_cons, List.length_nil]
    rw [hor ha (by decide), hor hb (by omega), hor hc (by omega), Nat.shiftLeft_eq]
    omega
  | case2 a b =>
    have ha := a.toNat_lt
    have hb := b.toNat_lt
    rw [b64, Base64.encode]
    apply b64Chunk_eq
    simp only [List.foldl_cons, List.foldl_nil, List.length_cons, List.length_nil]
    rw [hor ha (by decide), hor hb (by omega), Nat.shiftLeft_eq]
    omega
  | case3 a =>
    have ha := a.toNat_lt
    rw [b64, Base64.encode]
    apply b64Chunk_eq
    simp only [List.foldl_cons, List.foldl_nil, List.length_cons, List.length_nil]
    rw [hor ha (by decide), Nat.shiftLeft_eq]
    omega
  | case4 => rfl

/-- **A text is read as some bytes if and only if it is the one that is written for them**, so a
token and its MAC have one spelling. -/
theorem b64url_eq_some_iff (s : Text) (bytes : Bytes) :
    b64url s = some bytes ↔ b64 bytes = s := by
  rw [b64url_eq, b64_eq]
  constructor
  · exact Base64.encode_of_decode
  · intro h
    rw [← h, Base64.decode_encode]

example : b64url "_-8".toList = some [255, 239] ∧ b64url "_-9".toList = none := by decide +kernel

end LogLess.Auth
