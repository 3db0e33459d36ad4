import Mathlib.Data.List.Basic
import Mathlib.Tactic

/-!
# Lossy UTF-8

The decoder that replaces every maximal ill-formed piece of a byte string by one
`U+FFFD`, as a machine that reads a byte at a time. Between bytes it is either at
`start` or inside a sequence, where it knows how many continuation bytes are still owed
and in which range the next one must lie.

`lossy_append` is what a reader of a growing file needs: decoding piece by piece is
decoding the whole exactly as long as no piece ends inside a sequence. `lossy_encode`
says that what is well formed is decoded to what it encodes.
-/

namespace Utf8

/-- Where the decoder stands between two bytes. -/
inductive State where
  | start
  /-- `owed` continuation bytes are missing, the next one in `lo..hi`; `acc` holds the
  bits read so far. -/
  | within (owed lo hi acc : ℕ)
deriving DecidableEq, Repr

/-- `U+FFFD`. -/
def replacement : Char := Char.ofNat 0xFFFD

/-- A byte at the start of a character. -/
def first (b : ℕ) : List Char × State :=
  if b < 0x80 then ([Char.ofNat b], .start)
  else if 0xC2 ≤ b ∧ b ≤ 0xDF then ([], .within 1 0x80 0xBF (b - 0xC0))
  else if b = 0xE0 then ([], .within 2 0xA0 0xBF 0)
  else if b = 0xED then ([], .within 2 0x80 0x9F 0xD)
  else if 0xE1 ≤ b ∧ b ≤ 0xEF then ([], .within 2 0x80 0xBF (b - 0xE0))
  else if b = 0xF0 then ([], .within 3 0x90 0xBF 0)
  else if 0xF1 ≤ b ∧ b ≤ 0xF3 then ([], .within 3 0x80 0xBF (b - 0xF0))
  else if b = 0xF4 then ([], .within 3 0x80 0x8F 4)
  else ([replacement], .start)

/-- One byte: the characters it completes, and where the decoder stands after it. -/
def step : State → UInt8 → List Char × State
  | .start, b => first b.toNat
  | .within owed lo hi acc, b =>
    if lo ≤ b.toNat ∧ b.toNat ≤ hi then
      let acc := acc * 64 + (b.toNat - 0x80)
      if owed ≤ 1 then ([Char.ofNat acc], .start) else ([], .within (owed - 1) 0x80 0xBF acc)
    else
      -- the piece read so far is ill-formed; the byte starts over
      let (cs, s) := first b.toNat
      (replacement :: cs, s)

/-- What the end of the input adds. -/
def flush : State → List Char
  | .start => []
  | .within .. => [replacement]

/-- Where the decoder stands after `bytes`. -/
def after : State → List UInt8 → State
  | s, [] => s
  | s, b :: bs => after (step s b).2 bs

/-- The text decoded from `bytes` when the decoder starts at `s`. -/
def decode : State → List UInt8 → List Char
  | s, [] => flush s
  | s, b :: bs => (step s b).1 ++ decode (step s b).2 bs

/-- The lossy decoding of a byte string. -/
def lossy (bytes : List UInt8) : List Char := decode .start bytes

@[simp] theorem lossy_nil : lossy [] = [] := rfl

theorem after_append (s : State) (as bs : List UInt8) :
    after s (as ++ bs) = after (after s as) bs := by
  induction as generalizing s with
  | nil => rfl
  | cons a as ih => exact ih _

/-- A piece that does not end inside a sequence is decoded on its own. -/
theorem decode_append {s : State} {as : List UInt8} (h : after s as = .start)
    (bs : List UInt8) : decode s (as ++ bs) = decode s as ++ lossy bs := by
  induction as generalizing s with
  | nil =>
    obtain rfl : s = .start := h
    rfl
  | cons a as ih =>
    rw [List.cons_append, decode, decode, ih h, List.append_assoc]

theorem lossy_append {as : List UInt8} (h : after .start as = .start) (bs : List UInt8) :
    lossy (as ++ bs) = lossy as ++ lossy bs := decode_append h bs

/-! ## Well-formed input -/

/-- The UTF-8 encoding of a text. -/
def encode (t : List Char) : List UInt8 := t.flatMap String.utf8EncodeChar

/-- The text of a well-formed byte string: the one that encodes back to it. -/
def strict (bytes : List UInt8) : Option (List Char) :=
  if encode (lossy bytes) = bytes then some (lossy bytes) else none

theorem toNat_ofNat_of_lt {n : ℕ} (h : n < 256) : (UInt8.ofNat n).toNat = n := by
  rw [UInt8.toNat_ofNat', Nat.mod_eq_of_lt h]

/-- The first byte of a two-byte character. -/
theorem step_start_two {v : ℕ} (h1 : ¬ v ≤ 0x7F) (h2 : v ≤ 0x7FF) :
    step .start (UInt8.ofNat (v / 64 % 0x20 + 0xC0)) = ([], .within 1 0x80 0xBF (v / 64)) := by
  simp only [step, first, toNat_ofNat_of_lt (show v / 64 % 0x20 + 0xC0 < 256 by omega)]
  rw [if_neg (by omega), if_pos (by omega), show v / 64 % 0x20 + 0xC0 - 0xC0 = v / 64 by omega]

/-- The first byte of a three-byte character leaves a range its second byte lies in: the
two restricted leads are the ones that would encode too small a value or a surrogate. -/
theorem step_start_three {v : ℕ} (h1 : ¬ v ≤ 0x7FF) (h2 : v ≤ 0xFFFF)
    (hv : v < 0xD800 ∨ 0xDFFF < v ∧ v < 0x110000) :
    ∃ lo hi, step .start (UInt8.ofNat (v / 4096 % 0x10 + 0xE0)) = ([], .within 2 lo hi (v / 4096)) ∧
      lo ≤ v / 64 % 64 + 0x80 ∧ v / 64 % 64 + 0x80 ≤ hi := by
  simp only [step, first, toNat_ofNat_of_lt (show v / 4096 % 0x10 + 0xE0 < 256 by omega)]
  rw [if_neg (by omega), if_neg (by omega)]
  split_ifs
  · exact ⟨_, _, by rw [show v / 4096 = 0 by omega], by omega, by omega⟩
  · exact ⟨_, _, by rw [show v / 4096 = 0xD by omega], by omega, by omega⟩
  · exact ⟨_, _, by rw [show v / 4096 % 0x10 + 0xE0 - 0xE0 = v / 4096 by omega], by omega,
      by omega⟩
  all_goals omega

/-- The first byte of a four-byte character. -/
theorem step_start_four {v : ℕ} (h1 : ¬ v ≤ 0xFFFF)
    (hv : v < 0xD800 ∨ 0xDFFF < v ∧ v < 0x110000) :
    ∃ lo hi, step .start (UInt8.ofNat (v / 262144 % 0x08 + 0xF0))
      = ([], .within 3 lo hi (v / 262144)) ∧
      lo ≤ v / 4096 % 64 + 0x80 ∧ v / 4096 % 64 + 0x80 ≤ hi := by
  simp only [step, first, toNat_ofNat_of_lt (show v / 262144 % 0x08 + 0xF0 < 256 by omega)]
  rw [if_neg (by omega), if_neg (by omega), if_neg (by omega), if_neg (by omega),
    if_neg (by omega)]
  split_ifs
  · exact ⟨_, _, by rw [show v / 262144 = 0 by omega], by omega, by omega⟩
  · exact ⟨_, _, by rw [show v / 262144 % 0x08 + 0xF0 - 0xF0 = v / 262144 by omega], by omega,
      by omega⟩
  · exact ⟨_, _, by rw [show v / 262144 = 4 by omega], by omega, by omega⟩
  all_goals omega

/-- A continuation byte in the range its sequence asks for. -/
theorem step_within {owed lo hi acc n : ℕ} (hn : n < 64) (hlo : lo ≤ n + 0x80)
    (hhi : n + 0x80 ≤ hi) :
    step (.within owed lo hi acc) (UInt8.ofNat (n + 0x80))
      = if owed ≤ 1 then ([Char.ofNat (acc * 64 + n)], .start)
        else ([], .within (owed - 1) 0x80 0xBF (acc * 64 + n)) := by
  simp only [step, toNat_ofNat_of_lt (show n + 0x80 < 256 by omega), hlo, hhi, and_self, if_true,
    Nat.add_sub_cancel]

theorem step_within_low {owed acc v : ℕ} :
    step (.within owed 0x80 0xBF acc) (UInt8.ofNat (v % 64 + 0x80))
      = if owed ≤ 1 then ([Char.ofNat (acc * 64 + v % 64)], .start)
        else ([], .within (owed - 1) 0x80 0xBF (acc * 64 + v % 64)) :=
  step_within (by omega) (by omega) (by omega)

/-- A well-formed character is decoded on its own. -/
theorem decode_utf8EncodeChar (c : Char) (rest : List UInt8) :
    decode .start (String.utf8EncodeChar c ++ rest) = c :: decode .start rest := by
  have hc : Char.ofNat c.val.toNat = c := Char.ofNat_toNat c
  have hv : c.val.toNat < 0xD800 ∨ 0xDFFF < c.val.toNat ∧ c.val.toNat < 0x110000 := c.valid
  unfold String.utf8EncodeChar
  generalize c.val.toNat = v at hc hv ⊢
  simp only
  split
  · have h1 : step .start (UInt8.ofNat v) = ([Char.ofNat v], .start) := by
      simp [step, first, toNat_ofNat_of_lt (show v < 256 by omega), show v < 128 by omega]
    simp only [List.cons_append, List.nil_append, decode, h1, hc]
  · split
    · next h1 h2 =>
      have hval : v / 64 * 64 + v % 64 = v := by omega
      simp only [List.cons_append, List.nil_append, decode, step_start_two h1 h2, step_within_low,
        hval, hc, le_refl, if_true]
    · split
      · next h1 h2 =>
        obtain ⟨lo, hi, hstep, hlo, hhi⟩ := step_start_three h1 h2 hv
        have hval : (v / 4096 * 64 + v / 64 % 64) * 64 + v % 64 = v := by omega
        simp only [List.cons_append, List.nil_append, decode, hstep,
          step_within (Nat.mod_lt (v / 64) (by omega)) hlo hhi, step_within_low, hval, hc, le_refl,
          if_true, Nat.reduceLeDiff, if_false, Nat.reduceSub]
      · next h1 =>
        obtain ⟨lo, hi, hstep, hlo, hhi⟩ := step_start_four h1 hv
        have hval : ((v / 262144 * 64 + v / 4096 % 64) * 64 + v / 64 % 64) * 64 + v % 64 = v := by
          omega
        simp only [List.cons_append, List.nil_append, decode, hstep,
          step_within (Nat.mod_lt (v / 4096) (by omega)) hlo hhi, step_within_low, hval, hc,
          le_refl, if_true, Nat.reduceLeDiff, if_false, Nat.reduceSub]

theorem lossy_encode (t : List Char) : lossy (encode t) = t := by
  induction t with
  | nil => rfl
  | cons c t ih =>
    rw [lossy, encode, List.flatMap_cons, decode_utf8EncodeChar]
    exact congrArg _ ih

/-- What follows well-formed input is decoded on its own. -/
theorem lossy_encode_append (t : List Char) (rest : List UInt8) :
    lossy (encode t ++ rest) = t ++ lossy rest := by
  induction t with
  | nil => rfl
  | cons c t ih =>
    rw [lossy, encode, List.flatMap_cons, List.append_assoc, decode_utf8EncodeChar]
    exact congrArg _ ih

theorem strict_encode (t : List Char) : strict (encode t) = some t := by
  rw [strict, lossy_encode, if_pos rfl]

theorem eq_encode_of_strict {bytes : List UInt8} {t : List Char} (h : strict bytes = some t) :
    bytes = encode t := by
  rw [strict] at h
  split at h
  · next heq =>
    rw [← Option.some.inj h]
    exact heq.symm
  · cases h

theorem encode_append (s t : List Char) : encode (s ++ t) = encode s ++ encode t :=
  List.flatMap_append

theorem strict_append {bytes : List UInt8} {t : List Char} (h : strict bytes = some t)
    (more : List Char) : strict (bytes ++ encode more) = some (t ++ more) := by
  rw [eq_encode_of_strict h, ← encode_append, strict_encode]

theorem encode_eq_nil {t : List Char} (h : encode t = []) : t = [] := by
  rw [← lossy_encode t, h]
  rfl

/-- Bytes after text are text if the whole is. -/
theorem exists_of_strict_append {t : List Char} {bytes : List UInt8}
    (h : (strict (encode t ++ bytes)).isSome = true) : ∃ more, bytes = encode more := by
  obtain ⟨u, hu⟩ := Option.isSome_iff_exists.mp h
  have henc := eq_encode_of_strict hu
  have htext : u = t ++ lossy bytes := by
    rw [← lossy_encode u, ← henc, lossy_encode_append]
  rw [htext, encode_append] at henc
  exact ⟨_, List.append_cancel_left henc⟩

/-- A text is cut where a beginning of its bytes is text. -/
theorem exists_of_encode_append {t p : List Char} {rest : List UInt8}
    (h : encode p ++ rest = encode t) : ∃ q, p ++ q = t ∧ rest = encode q := by
  have htext : p ++ lossy rest = t := by
    rw [← lossy_encode_append, h, lossy_encode]
  refine ⟨lossy rest, htext, ?_⟩
  rw [← htext, encode_append] at h
  exact List.append_cancel_left h

theorem length_encode (t : List Char) : (encode t).length = (t.map Char.utf8Size).sum := by
  induction t with
  | nil => rfl
  | cons c t ih =>
    rw [encode, List.flatMap_cons, List.length_append, String.length_utf8EncodeChar,
      List.map_cons, List.sum_cons, ← ih, encode]

/-- The bytes of a character beyond ASCII are beyond ASCII. -/
theorem le_of_mem_utf8EncodeChar {c : Char} {b : UInt8} (h : b ∈ String.utf8EncodeChar c) :
    b.toNat = c.toNat ∨ 0x80 ≤ b.toNat := by
  unfold String.utf8EncodeChar at h
  rw [show c.toNat = c.val.toNat from rfl]
  generalize c.val.toNat = v at h ⊢
  simp only at h
  split_ifs at h
  all_goals simp only [List.mem_cons, List.not_mem_nil, or_false] at h
  · left
    rw [h, toNat_ofNat_of_lt (by omega)]
  · right
    rcases h with rfl | rfl <;> rw [toNat_ofNat_of_lt (by omega)] <;> omega
  · right
    rcases h with rfl | rfl | rfl <;> rw [toNat_ofNat_of_lt (by omega)] <;> omega
  · right
    rcases h with rfl | rfl | rfl | rfl <;> rw [toNat_ofNat_of_lt (by omega)] <;> omega

/-- Text without control characters has no control bytes. -/
theorem le_of_mem_encode {t : List Char} (h : ∀ c ∈ t, 0x20 ≤ c.toNat) {b : UInt8}
    (hb : b ∈ encode t) : 0x20 ≤ b.toNat := by
  obtain ⟨c, hc, hbc⟩ := List.mem_flatMap.mp hb
  have hle := h c hc
  rcases le_of_mem_utf8EncodeChar hbc with heq | hge <;> omega

-- a three-byte character, a truncated one, and a lone continuation byte
example : lossy [0xE2, 0x82, 0xAC, 0x41, 0xE2, 0x82, 0x41, 0x80]
    = ['€', 'A', replacement, 'A', replacement] := by decide

/-! ## ASCII characters -/

/-- A state from which only characters outside ASCII are completed. -/
def State.Long : State → Prop
  | .start => True
  | .within owed lo _ acc =>
    0x80 ≤ lo ∧ (2 ≤ acc ∨ 2 ≤ owed ∧ 1 ≤ acc ∨ 2 ≤ owed ∧ 0x82 ≤ lo)

theorem ofNat_ne_ascii {n : ℕ} (h : 0x80 ≤ n) {c : Char} (hc : c.toNat < 0x80) (hc0 : c.toNat ≠ 0) :
    Char.ofNat n ≠ c := by
  rintro rfl
  by_cases hvalid : n.isValidChar
  · rw [Char.ofNat, dif_pos hvalid] at hc
    have : n < 0x80 := hc
    omega
  · rw [Char.ofNat, dif_neg hvalid] at hc0
    exact hc0 rfl

theorem count_first {c : Char} (hc : c.toNat < 0x80) (hc0 : c.toNat ≠ 0) (n : ℕ) :
    (first n).1.count c = (if n = c.toNat then 1 else 0) ∧ (first n).2.Long := by
  have hreplacement : replacement ≠ c := ofNat_ne_ascii (by decide) hc hc0
  by_cases hlt : n < 0x80
  · rw [first, if_pos hlt]
    refine ⟨?_, trivial⟩
    have hvalid : (Char.ofNat n).toNat = n := by
      rw [Char.ofNat, dif_pos (.inl (by omega))]
      rfl
    rw [List.count_singleton]
    by_cases hn : n = c.toNat
    · rw [if_pos hn, hn, Char.ofNat_toNat, beq_self_eq_true, if_pos rfl]
    · have hne : Char.ofNat n ≠ c := fun h => hn (by rw [← h, hvalid])
      rw [if_neg hn, beq_eq_false_iff_ne.mpr hne, if_neg (by decide)]
  · have hn : n ≠ c.toNat := by omega
    rw [first, if_neg hlt, if_neg hn]
    split_ifs
    all_goals
      first
      | exact ⟨by simp [hreplacement], trivial⟩
      | refine ⟨rfl, ?_⟩
        simp only [State.Long]
        omega

theorem count_step {c : Char} (hc : c.toNat < 0x80) (hc0 : c.toNat ≠ 0) {s : State} (hs : s.Long)
    (b : UInt8) :
    (step s b).1.count c = (if b.toNat = c.toNat then 1 else 0) ∧ (step s b).2.Long := by
  cases s with
  | start => exact count_first hc hc0 b.toNat
  | within owed lo hi acc =>
    obtain ⟨hlo, hlong⟩ := hs
    rw [step]
    split
    · next hin =>
      have hne : b.toNat ≠ c.toNat := by omega
      rw [if_neg hne]
      simp only
      split
      · have hchar : Char.ofNat (acc * 64 + (b.toNat - 0x80)) ≠ c := ofNat_ne_ascii (by omega) hc hc0
        exact ⟨by simp [hchar], trivial⟩
      · refine ⟨rfl, ?_⟩
        simp only [State.Long]
        omega
    · have hreplacement : replacement ≠ c := ofNat_ne_ascii (by decide) hc hc0
      obtain ⟨hcount, hlong'⟩ := count_first hc hc0 b.toNat
      refine ⟨?_, hlong'⟩
      simp only
      rw [List.count_cons_of_ne hreplacement, hcount]

/-- Lossy decoding keeps the ASCII characters, whatever becomes of the other bytes. -/
theorem count_lossy {c : Char} (hc : c.toNat < 0x80) (hc0 : c.toNat ≠ 0) (bytes : List UInt8) :
    (lossy bytes).count c = bytes.countP fun b => b.toNat = c.toNat := by
  have hdecode : ∀ s : State, s.Long →
      (decode s bytes).count c = bytes.countP fun b => b.toNat = c.toNat := by
    induction bytes with
    | nil =>
      intro s hs
      have hreplacement : replacement ≠ c := ofNat_ne_ascii (by decide) hc hc0
      cases s with
      | start => rfl
      | within owed lo hi acc => simp [decode, flush, hreplacement]
    | cons b bs ih =>
      intro s hs
      obtain ⟨hcount, hlong⟩ := count_step hc hc0 hs b
      rw [decode, List.count_append, hcount, ih _ hlong, List.countP_cons]
      simp only [decide_eq_true_eq]
      omega
  exact hdecode .start trivial

end Utf8
