import LogLess.Lib.Frames
import LogLess.Lib.Utf8
import LogLess.Lib.Varint

/-!
# The protobuf wire format

A reader of fields: a key with the number and the wire type, then a value of one of four kinds. The
position never leaves the buffer, which the reader carries as a proof.
-/

namespace LogLess.Proto

open Frames (Bytes)

inductive ProtoError where
  | truncated (at_ wanted left : ℕ)
  | varintOverflow (at_ : ℕ)
  | unsupportedWireType (at_ : ℕ) (field : UInt32) (wireType : ℕ)
  | zeroFieldNumber (at_ : ℕ)
  | tooDeep (limit : ℕ)
  | invalidUtf8 (at_ : ℕ)
deriving DecidableEq

def maxDepth : ℕ := 16

structure Reader where
  buf : Bytes
  pos : ℕ
  depth : ℕ
  within : pos ≤ buf.length
deriving DecidableEq

inductive Field where
  | varint (v : UInt64)
  | fixed64 (v : UInt64)
  | fixed32 (v : UInt32)
  | bytes (b : Bytes)
deriving DecidableEq

/-- `from_le_bytes`. -/
def fromLe : Bytes → ℕ
  | [] => 0
  | b :: bs => b.toNat + 256 * fromLe bs

namespace Reader

def new (buf : Bytes) : Reader := ⟨buf, 0, 0, Nat.zero_le _⟩

def nested (buf : Bytes) (depth : ℕ) : Reader := ⟨buf, 0, depth, Nat.zero_le _⟩

def isEmpty (r : Reader) : Bool := r.buf.length ≤ r.pos

/-- What is not read yet. -/
def rest (r : Reader) : Bytes := r.buf.drop r.pos

def advance (r : Reader) (n : ℕ) (h : r.pos + n ≤ r.buf.length) : Reader :=
  { r with pos := r.pos + n, within := h }

/-- The loop over the shifts of a varint, `rounds` of them to go. -/
def varintFrom (at_ : ℕ) : ℕ → ℕ → UInt64 → Reader → Except ProtoError (UInt64 × Reader)
  | 0, _, _, _ => .error (.varintOverflow at_)
  | rounds + 1, shift, value, r =>
    if h : r.pos + 1 ≤ r.buf.length then
      let byte := r.buf[r.pos]
      let value := value ||| ((byte &&& 0x7f).toUInt64 <<< UInt64.ofNat shift)
      if byte &&& 0x80 = 0 then .ok (value, r.advance 1 h)
      else varintFrom at_ rounds (shift + 7) value (r.advance 1 h)
    else .error (.truncated at_ 1 0)

def varint (r : Reader) : Except ProtoError (UInt64 × Reader) := r.varintFrom r.pos 10 0 0

theorem pos_add_le (r : Reader) {len : ℕ} (h : ¬ r.buf.length - r.pos < len) :
    r.pos + len ≤ r.buf.length := by
  have := r.within
  omega

def take (r : Reader) (len : ℕ) : Except ProtoError (Bytes × Reader) :=
  if h : r.buf.length - r.pos < len then .error (.truncated r.pos len (r.buf.length - r.pos))
  else .ok ((r.buf.drop r.pos).take len, r.advance len (r.pos_add_le h))

/-- The value of a field, after its key. -/
def readValue (r : Reader) (at_ : ℕ) (field : UInt32) (wireType : ℕ) :
    Except ProtoError (Field × Reader) :=
  match wireType with
  | 0 => r.varint.map fun x => (.varint x.1, x.2)
  | 1 => (r.take 8).map fun x => (.fixed64 (UInt64.ofNat (fromLe x.1)), x.2)
  | 2 =>
    match r.varint with
    | .error e => .error e
    | .ok (len, r) => (r.take len.toNat).map fun x => (.bytes x.1, x.2)
  | 5 => (r.take 4).map fun x => (.fixed32 (UInt32.ofNat (fromLe x.1)), x.2)
  | _ => .error (.unsupportedWireType at_ field wireType)

def nextField (r : Reader) : Except ProtoError (Option ((UInt32 × Field) × Reader)) :=
  if r.isEmpty then .ok none
  else
    match r.varint with
    | .error e => .error e
    | .ok (key, r') =>
      let field := (key >>> 3).toUInt32
      if field = 0 then .error (.zeroFieldNumber r.pos)
      else (r'.readValue r.pos field (key &&& 7).toNat).map fun x => some ((field, x.1), x.2)

/-- The loop of a caller: where each field was read from, and the field. -/
def reads : ℕ → Reader → Except ProtoError (List (Reader × UInt32 × Field))
  | 0, _ => .ok []
  | fuel + 1, r =>
    match r.nextField with
    | .error e => .error e
    | .ok none => .ok []
    | .ok (some (field, r')) => (reads fuel r').map fun fields => (r, field) :: fields

end Reader

namespace Field

def message (f : Field) (parent : Reader) : Except ProtoError Reader :=
  if maxDepth < parent.depth + 1 then .error (.tooDeep maxDepth)
  else
    match f with
    | .bytes b => .ok (.nested b (parent.depth + 1))
    | _ => .ok (.nested [] (parent.depth + 1))

def payload : Field → Bytes
  | .bytes b => b
  | _ => []

def string (f : Field) : Except ProtoError (List Char) :=
  match f with
  | .bytes b =>
    match Utf8.strict b with
    | some s => .ok s
    | none => .error (.invalidUtf8 0)
  | _ => .ok []

def asU64 : Field → UInt64
  | .varint v => v
  | .fixed64 v => v
  | .fixed32 v => v.toUInt64
  | .bytes _ => 0

def asBool (f : Field) : Bool := f.asU64 ≠ 0

end Field

/-! ## The encoding -/

/-- A `u64` takes at most ten bytes. -/
def varint (v : UInt64) : Bytes := Varint.encode 10 v.toNat

def tag (field : UInt32) (wire : UInt64) : Bytes := varint ((field.toUInt64 <<< 3) ||| wire)

/-- `to_le_bytes`. -/
def toLe : ℕ → ℕ → Bytes
  | 0, _ => []
  | count + 1, v => UInt8.ofNat (v % 256) :: toLe count (v / 256)

def encode (f : UInt32 × Field) : Bytes :=
  match f.2 with
  | .varint v => tag f.1 0 ++ varint v
  | .fixed64 v => tag f.1 1 ++ toLe 8 v.toNat
  | .bytes b => tag f.1 2 ++ (varint (UInt64.ofNat b.length) ++ b)
  | .fixed32 v => tag f.1 5 ++ toLe 4 v.toNat

/-! ## Reading a varint -/

theorem map_eq_ok {ε α β : Type} {x : Except ε α} {f : α → β} {b : β} :
    x.map f = .ok b ↔ ∃ a, x = .ok a ∧ f a = b := by
  cases x with
  | error e => exact ⟨nofun, fun ⟨_, h, _⟩ => nomatch h⟩
  | ok a => exact ⟨fun h => ⟨a, rfl, Except.ok.inj h⟩, fun ⟨_, h, h'⟩ => by cases h; rw [← h']; rfl⟩

/-- The reader has moved on in the same buffer. -/
structure Reader.Onward (r r' : Reader) : Prop where
  buf : r'.buf = r.buf
  depth : r'.depth = r.depth
  pos : r.pos < r'.pos

namespace Reader

theorem length_rest (r : Reader) : r.rest.length = r.buf.length - r.pos := List.length_drop

theorem rest_eq_cons (r : Reader) (h : r.pos + 1 ≤ r.buf.length) :
    r.rest = r.buf[r.pos] :: (r.advance 1 h).rest :=
  List.drop_eq_getElem_cons h

theorem rest_advance (r : Reader) (n : ℕ) (h : r.pos + n ≤ r.buf.length) :
    (r.advance n h).rest = r.rest.drop n := by
  rw [rest, rest, List.drop_drop]
  rfl

theorem low_bits (b : UInt8) : (b &&& 0x7f).toNat = b.toNat % 128 := by
  rw [UInt8.toNat_and]
  exact Nat.and_two_pow_sub_one_eq_mod _ 7

theorem high_bit (b : UInt8) : b &&& 0x80 = 0 ↔ b.toNat < 128 := by
  have hall : ∀ n < 256, UInt8.ofNat n &&& 0x80 = 0 ↔ n < 128 := by decide +kernel
  have hb := hall b.toNat b.toNat_lt
  rwa [UInt8.ofNat_toNat] at hb

/-- One more group of seven bits; what does not fit is cut off. -/
theorem toNat_group {value : UInt64} {shift : ℕ} (hshift : shift ≤ 63)
    (hvalue : value.toNat < 2 ^ shift) (b : UInt8) :
    (value ||| ((b &&& 0x7f).toUInt64 <<< UInt64.ofNat shift)).toNat
      = (value.toNat + 2 ^ shift * (b.toNat % 128)) % 2 ^ 64 := by
  have hofNat : (UInt64.ofNat shift).toNat % 64 = shift := by
    rw [UInt64.toNat_ofNat', Nat.mod_eq_of_lt (by omega), Nat.mod_eq_of_lt (by omega)]
  have hpow : 2 ^ 64 = 2 ^ (64 - shift) * 2 ^ shift := by
    rw [← Nat.pow_add, Nat.sub_add_cancel (by omega)]
  have hcut : (b.toNat % 128 * 2 ^ shift) % 2 ^ 64
      = b.toNat % 128 % 2 ^ (64 - shift) * 2 ^ shift := by
    rw [hpow, Nat.mul_mod_mul_right]
  rw [UInt64.toNat_or, UInt64.toNat_shiftLeft, hofNat, UInt8.toNat_toUInt64, low_bits,
    Nat.shiftLeft_eq, hcut, Nat.or_comm, ← Nat.shiftLeft_eq, ← Nat.shiftLeft_add_eq_or_of_lt hvalue,
    Nat.shiftLeft_eq]
  have hlt : b.toNat % 128 % 2 ^ (64 - shift) * 2 ^ shift + value.toNat < 2 ^ 64 := by
    have hmod : b.toNat % 128 % 2 ^ (64 - shift) < 2 ^ (64 - shift) :=
      Nat.mod_lt _ (Nat.two_pow_pos _)
    calc b.toNat % 128 % 2 ^ (64 - shift) * 2 ^ shift + value.toNat
        < b.toNat % 128 % 2 ^ (64 - shift) * 2 ^ shift + 2 ^ shift := by omega
      _ = (b.toNat % 128 % 2 ^ (64 - shift) + 1) * 2 ^ shift := by ring
      _ ≤ 2 ^ (64 - shift) * 2 ^ shift := Nat.mul_le_mul_right _ hmod
      _ = 2 ^ 64 := hpow.symm
  have hsum : (value.toNat + 2 ^ shift * (b.toNat % 128)) % 2 ^ 64
      = (b.toNat % 128 % 2 ^ (64 - shift) * 2 ^ shift + value.toNat) % 2 ^ 64 := by
    rw [← hcut, Nat.mod_add_mod]
    congr 1
    ring
  rw [hsum, Nat.mod_eq_of_lt hlt]

theorem varintFrom_spec (at_ : ℕ) {rounds shift : ℕ} (hshift : shift + 7 * rounds = 70)
    {value : UInt64} (hvalue : value.toNat < 2 ^ shift) (r : Reader) :
    (Varint.ends rounds r.rest = true → ∃ v r', r.varintFrom at_ rounds shift value = .ok (v, r') ∧
      v.toNat = (value.toNat + 2 ^ shift * Varint.value r.rest) % 2 ^ 64 ∧ r.Onward r' ∧
      r'.rest = Varint.after r.rest) ∧
    (Varint.ends rounds r.rest = false → ∃ e, r.varintFrom at_ rounds shift value = .error e) := by
  induction rounds generalizing shift value r with
  | zero => exact ⟨fun h => absurd h Bool.false_ne_true, fun _ => ⟨_, rfl⟩⟩
  | succ rounds ih =>
    rw [varintFrom]
    by_cases hpos : r.pos + 1 ≤ r.buf.length
    · have hrest := r.rest_eq_cons hpos
      have hgroup := toNat_group (by omega) hvalue r.buf[r.pos]
      rw [dif_pos hpos, hrest, Varint.ends, Varint.value, Varint.after]
      have honward : r.Onward (r.advance 1 hpos) := ⟨rfl, rfl, Nat.lt_succ_self _⟩
      by_cases hbit : r.buf[r.pos].toNat < 128
      · -- the last byte
        rw [if_pos hbit, if_pos hbit, decide_eq_true hbit]
        simp only [if_pos ((high_bit _).mpr hbit)]
        refine ⟨fun _ => ⟨_, _, rfl, ?_, honward, rfl⟩, fun h => absurd h.symm Bool.false_ne_true⟩
        rw [hgroup, Nat.mod_eq_of_lt hbit]
      · rw [if_neg hbit, if_neg hbit, decide_eq_false hbit, Bool.false_or]
        simp only [if_neg fun h => hbit ((high_bit _).mp h)]
        cases rounds with
        | zero => exact ⟨fun h => absurd h Bool.false_ne_true, fun _ => ⟨_, rfl⟩⟩
        | succ rounds =>
          -- another byte can follow, so nothing of this one was cut
          have hpow : 2 ^ (shift + 7) = 2 ^ shift * 128 := Nat.pow_add 2 shift 7
          have hfits : value.toNat + 2 ^ shift * (r.buf[r.pos].toNat % 128) < 2 ^ (shift + 7) := by
            have hlow : r.buf[r.pos].toNat % 128 ≤ 127 := by omega
            have hmul := Nat.mul_le_mul_left (2 ^ shift) hlow
            omega
          have hmod : 2 ^ (shift + 7) ≤ 2 ^ 64 := Nat.pow_le_pow_right (by decide) (by omega)
          rw [Nat.mod_eq_of_lt (by omega)] at hgroup
          have hnext : shift + 7 + 7 * (rounds + 1) = 70 := by omega
          obtain ⟨hok, herror⟩ := ih hnext (hgroup ▸ hfits) (r.advance 1 hpos)
          refine ⟨?_, herror⟩
          intro hends
          obtain ⟨v, r', hv, hval, hon, hafter⟩ := hok hends
          refine ⟨v, r', hv, ?_, ⟨hon.buf, hon.depth, Nat.lt_trans (Nat.lt_succ_self _) hon.pos⟩,
            hafter⟩
          rw [hval, hgroup, hpow]
          congr 1
          ring
    · have hrest : r.rest = [] := List.drop_eq_nil_of_le (by omega)
      rw [dif_neg hpos, hrest]
      exact ⟨fun h => absurd h Bool.false_ne_true, fun _ => ⟨_, rfl⟩⟩

theorem Onward.trans {r r' r'' : Reader} (h : r.Onward r') (h' : r'.Onward r'') : r.Onward r'' :=
  ⟨h'.buf.trans h.buf, h'.depth.trans h.depth, h.pos.trans h'.pos⟩

theorem varint_spec (r : Reader) :
    (Varint.ends 10 r.rest = true → ∃ v r', r.varint = .ok (v, r') ∧
      v.toNat = Varint.value r.rest % 2 ^ 64 ∧ r.Onward r' ∧ r'.rest = Varint.after r.rest) ∧
    (Varint.ends 10 r.rest = false → ∃ e, r.varint = .error e) := by
  have h := @varintFrom_spec r.pos 10 0 rfl 0 (by decide) r
  rw [UInt64.toNat_zero, Nat.zero_add, pow_zero, one_mul] at h
  exact h

theorem varint_eq_ok {r r' : Reader} {v : UInt64} (h : r.varint = .ok (v, r')) :
    v.toNat = Varint.value r.rest % 2 ^ 64 ∧ r.Onward r' ∧ r'.rest = Varint.after r.rest := by
  obtain ⟨hok, herror⟩ := r.varint_spec
  cases hends : Varint.ends 10 r.rest with
  | false =>
    obtain ⟨e, he⟩ := herror hends
    rw [he] at h
    cases h
  | true =>
    obtain ⟨v', r'', hv, hspec⟩ := hok hends
    rw [hv] at h
    cases h
    exact hspec

/-- What was taken, and where it stood. -/
theorem take_eq_ok {r r' : Reader} {len : ℕ} {b : Bytes} (h : r.take len = .ok (b, r')) :
    r'.buf = r.buf ∧ r'.depth = r.depth ∧ r'.pos = r.pos + len ∧ b.length = len ∧
      b = (r.buf.drop r.pos).take len := by
  rw [take] at h
  split at h
  · cases h
  · next hle =>
    cases h
    refine ⟨rfl, rfl, rfl, ?_, rfl⟩
    rw [List.length_take, List.length_drop]
    omega

/-! ## Reading a field -/

/-- The bytes of `f`, if it has any, stand between the positions of the two readers. -/
def Slices (r r' : Reader) (f : Field) : Prop :=
  f = .bytes f.payload → ∃ start, r.pos < start ∧ start + f.payload.length = r'.pos ∧
    f.payload = (r.buf.drop start).take f.payload.length

/-- What the varints of a field denote is what was read: the number from the key, and the value or
the length after it. `rest` begins with the key. -/
def Exact (rest : Bytes) (number : UInt32) : Field → Prop
  | .varint v => number.toNat = Varint.value rest / 8 ∧ v.toNat = Varint.value (Varint.after rest)
  | .bytes b => number.toNat = Varint.value rest / 8 ∧ b.length = Varint.value (Varint.after rest)
  | .fixed64 _ => number.toNat = Varint.value rest / 8
  | .fixed32 _ => number.toNat = Varint.value rest / 8

/-- The number of the key has at most 32 bits, and the varint after it, if the wire type has one,
at most 64. -/
def Fits (rest : Bytes) : Prop :=
  Varint.value rest / 8 < 2 ^ 32 ∧
    (Varint.value rest % 8 = 0 ∨ Varint.value rest % 8 = 2 →
      Varint.value (Varint.after rest) < 2 ^ 64)

/-- What is read of a value: a varint or a length that was cut to 64 bits. -/
def Carries (rest : Bytes) (wireType : ℕ) : Field → Prop
  | .varint v => wireType = 0 ∧ v.toNat = Varint.value rest % 2 ^ 64
  | .bytes b => wireType = 2 ∧ b.length = Varint.value rest % 2 ^ 64
  | .fixed64 _ => wireType ≠ 0 ∧ wireType ≠ 2
  | .fixed32 _ => wireType ≠ 0 ∧ wireType ≠ 2

theorem readValue_eq_ok {r r' : Reader} {at_ wireType : ℕ} {field : UInt32} {v : Field}
    (h : r.readValue at_ field wireType = .ok (v, r')) :
    r.Onward r' ∧ Carries r.rest wireType v ∧
      (v = .bytes v.payload → ∃ start, r.pos < start ∧ start + v.payload.length = r'.pos ∧
        v.payload = (r.buf.drop start).take v.payload.length) := by
  unfold readValue at h
  split at h
  · -- a varint
    obtain ⟨⟨n, r₁⟩, hvarint, heq⟩ := map_eq_ok.mp h
    cases heq
    obtain ⟨hn, honward, -⟩ := varint_eq_ok hvarint
    exact ⟨honward, ⟨rfl, hn⟩, nofun⟩
  · obtain ⟨⟨b, r₁⟩, htake, heq⟩ := map_eq_ok.mp h
    cases heq
    obtain ⟨hbuf, hdepth, hpos, -, -⟩ := take_eq_ok htake
    have hlt : r.pos < r₁.pos := (Nat.lt_add_of_pos_right (by decide)).trans_eq hpos.symm
    exact ⟨⟨hbuf, hdepth, hlt⟩, ⟨by decide, by decide⟩, nofun⟩
  · -- bytes after their length
    cases hvarint : r.varint with
    | error e =>
      rw [hvarint] at h
      cases h
    | ok x =>
      obtain ⟨n, r₁⟩ := x
      rw [hvarint] at h
      obtain ⟨⟨b, r₂⟩, htake, heq⟩ := map_eq_ok.mp h
      cases heq
      obtain ⟨hn, honward, -⟩ := varint_eq_ok hvarint
      obtain ⟨hbuf, hdepth, hpos, hlen, hb⟩ := take_eq_ok htake
      have hstart := honward.pos
      have hlt : r.pos < r₂.pos := (hstart.trans_le (Nat.le_add_right _ _)).trans_eq hpos.symm
      refine ⟨⟨hbuf.trans honward.buf, hdepth.trans honward.depth, hlt⟩,
        ⟨rfl, hlen.trans hn⟩, fun _ => ⟨r₁.pos, hstart, ?_, ?_⟩⟩
      · rw [hpos, Field.payload, hlen]
      · rw [Field.payload, ← honward.buf, hlen]
        exact hb
  · obtain ⟨⟨b, r₁⟩, htake, heq⟩ := map_eq_ok.mp h
    cases heq
    obtain ⟨hbuf, hdepth, hpos, -, -⟩ := take_eq_ok htake
    have hlt : r.pos < r₁.pos := (Nat.lt_add_of_pos_right (by decide)).trans_eq hpos.symm
    exact ⟨⟨hbuf, hdepth, hlt⟩, ⟨by decide, by decide⟩, nofun⟩
  · cases h

theorem toNat_number (key : UInt64) : (key >>> 3).toUInt32.toNat = key.toNat / 8 % 2 ^ 32 := by
  rw [UInt64.toNat_toUInt32, UInt64.toNat_shiftRight, Nat.shiftRight_eq_div_pow]
  rfl

theorem toNat_wireType (key : UInt64) : (key &&& 7).toNat = key.toNat % 8 := by
  rw [UInt64.toNat_and]
  exact Nat.and_two_pow_sub_one_eq_mod _ 3

/-- What one field takes of the buffer, and when it was read as it was written. -/
theorem nextField_eq_ok {r r' : Reader} {number : UInt32} {v : Field}
    (h : r.nextField = .ok (some ((number, v), r'))) :
    r.Onward r' ∧ Slices r r' v ∧ (Exact r.rest number v ↔ Fits r.rest) := by
  rw [nextField] at h
  split at h
  · cases h
  · cases hvarint : r.varint with
    | error e =>
      rw [hvarint] at h
      cases h
    | ok x =>
      obtain ⟨key, r₁⟩ := x
      rw [hvarint] at h
      simp only at h
      split at h
      · cases h
      · obtain ⟨⟨v', r₂⟩, hvalue, heq⟩ := map_eq_ok.mp h
        cases heq
        obtain ⟨hkey, honward, hrest⟩ := varint_eq_ok hvarint
        obtain ⟨honward', hcarries, hslices⟩ := readValue_eq_ok hvalue
        refine ⟨honward.trans honward', ?_, ?_⟩
        · intro hbytes
          obtain ⟨start, hstart, hend, hb⟩ := hslices hbytes
          exact ⟨start, honward.pos.trans hstart, hend, honward.buf ▸ hb⟩
        · have hnumber := toNat_number key
          rw [hkey] at hnumber
          rw [hrest, toNat_wireType, hkey] at hcarries
          cases v' with
          | varint n =>
            obtain ⟨hwire, hn⟩ := hcarries
            rw [Exact, Fits, hnumber, hn]
            omega
          | bytes b =>
            obtain ⟨hwire, hlen⟩ := hcarries
            rw [Exact, Fits, hnumber, hlen]
            omega
          | fixed64 n =>
            obtain ⟨hwire, hwire'⟩ := hcarries
            rw [Exact, Fits, hnumber]
            omega
          | fixed32 n =>
            obtain ⟨hwire, hwire'⟩ := hcarries
            rw [Exact, Fits, hnumber]
            omega

/-! ## Reading what was written -/

theorem varint_append {r : Reader} {v : UInt64} {tail : Bytes}
    (h : r.rest = Proto.varint v ++ tail) :
    ∃ r', r.varint = .ok (v, r') ∧ r'.rest = tail := by
  have hlt : v.toNat < 128 ^ 10 := v.toNat_lt.trans (by decide)
  obtain ⟨hends, hvalue, hafter⟩ := Varint.encode_spec hlt (by decide) tail
  rw [Proto.varint] at h
  obtain ⟨v', r', hv, hval, -, hrest⟩ := r.varint_spec.1 (h ▸ hends)
  rw [h, hvalue, Nat.mod_eq_of_lt v.toNat_lt] at hval
  refine ⟨r', ?_, hrest.trans (h ▸ hafter)⟩
  rw [hv, UInt64.toNat_inj.mp hval]

theorem take_append {r : Reader} {b tail : Bytes} (h : r.rest = b ++ tail) :
    ∃ r', r.take b.length = .ok (b, r') ∧ r'.rest = tail := by
  have hlen := congrArg List.length h
  rw [length_rest, List.length_append] at hlen
  rw [take, dif_neg (by omega)]
  refine ⟨_, by rw [← rest, h, List.take_left], ?_⟩
  rw [rest_advance, h, List.drop_left]

theorem length_toLe (count v : ℕ) : (toLe count v).length = count := by
  induction count generalizing v with
  | zero => rfl
  | succ count ih => rw [toLe, List.length_cons, ih]

theorem fromLe_toLe {count v : ℕ} (h : v < 256 ^ count) : fromLe (toLe count v) = v := by
  induction count generalizing v with
  | zero =>
    rw [pow_zero] at h
    rw [toLe, fromLe]
    omega
  | succ count ih =>
    have hdiv : v / 256 < 256 ^ count := by
      rw [Nat.div_lt_iff_lt_mul (by decide), ← Nat.pow_succ]
      exact h
    rw [toLe, fromLe, ih hdiv, UInt8.toNat_ofNat']
    omega

/-- A fixed value of so many bytes. -/
theorem take_toLe {r : Reader} {count v : ℕ} {tail : Bytes} (h : r.rest = toLe count v ++ tail) :
    ∃ r', r.take count = .ok (toLe count v, r') ∧ r'.rest = tail := by
  have htake := take_append h
  rwa [length_toLe] at htake

/-- The key of a field. -/
theorem toNat_tag {number : UInt32} {wire : UInt64} (hnumber : number.toNat < 2 ^ 29)
    (hwire : wire.toNat < 8) :
    ((number.toUInt64 <<< 3) ||| wire).toNat = number.toNat * 8 + wire.toNat := by
  have hshift : (number.toUInt64 <<< 3).toNat = number.toNat <<< 3 := by
    rw [UInt64.toNat_shiftLeft, UInt32.toNat_toUInt64, Nat.mod_eq_of_lt]
    · rfl
    · show number.toNat <<< 3 < 2 ^ 64
      rw [Nat.shiftLeft_eq]
      omega
  rw [UInt64.toNat_or, hshift, ← Nat.shiftLeft_add_eq_or_of_lt hwire, Nat.shiftLeft_eq]

/-- A field whose key was read goes on with its value. -/
theorem nextField_tag {r : Reader} {number : UInt32} {wire : UInt64} {tail : Bytes}
    (hnumber : 1 ≤ number.toNat ∧ number.toNat < 2 ^ 29) (hwire : wire.toNat < 8)
    (h : r.rest = tag number wire ++ tail) :
    ∃ r₁ : Reader, r₁.rest = tail ∧ r.nextField
      = (r₁.readValue r.pos number wire.toNat).map fun x => some ((number, x.1), x.2) := by
  obtain ⟨r₁, hvarint, hrest⟩ := varint_append h
  have hkey := toNat_tag hnumber.2 hwire
  have hfield : ((number.toUInt64 <<< 3 ||| wire) >>> 3).toUInt32 = number := by
    apply UInt32.toNat_inj.mp
    rw [toNat_number, hkey]
    omega
  have htype : ((number.toUInt64 <<< 3 ||| wire) &&& 7).toNat = wire.toNat := by
    rw [toNat_wireType, hkey]
    omega
  have hne : r.isEmpty = false := by
    have hpos := (varint_eq_ok hvarint).2.1
    have := hpos.pos
    have := r₁.within
    rw [isEmpty, decide_eq_false_iff_not, ← hpos.buf]
    omega
  have hzero : number ≠ 0 := by
    rintro rfl
    exact absurd hnumber.1 (by decide)
  refine ⟨r₁, hrest, ?_⟩
  rw [nextField, hne, if_neg (by decide), hvarint]
  simp only [hfield, htype, if_neg hzero]

/-- The fields the code can be sent: a number of 29 bits, and a length that fits in memory. -/
def Encodable (f : UInt32 × Field) : Prop :=
  (1 ≤ f.1.toNat ∧ f.1.toNat < 2 ^ 29) ∧ f.2.payload.length < 2 ^ 64

theorem nextField_encode {r : Reader} {f : UInt32 × Field} (hf : Encodable f) {tail : Bytes}
    (h : r.rest = encode f ++ tail) :
    ∃ r', r.nextField = .ok (some (f, r')) ∧ r'.rest = tail := by
  obtain ⟨number, v⟩ := f
  cases v with
  | varint n =>
    rw [encode, List.append_assoc] at h
    obtain ⟨r₁, hrest, hnext⟩ := nextField_tag hf.1 (by decide) h
    obtain ⟨r', hn, htail⟩ := varint_append hrest
    refine ⟨r', ?_, htail⟩
    rw [hnext]
    show (r₁.readValue r.pos number 0).map _ = _
    rw [readValue, hn]
    rfl
  | fixed64 n =>
    rw [encode, List.append_assoc] at h
    obtain ⟨r₁, hrest, hnext⟩ := nextField_tag hf.1 (by decide) h
    obtain ⟨r', hn, htail⟩ := take_toLe hrest
    refine ⟨r', ?_, htail⟩
    rw [hnext]
    show (r₁.readValue r.pos number 1).map _ = _
    rw [readValue, hn, Except.map, Except.map, fromLe_toLe (n.toNat_lt.trans_eq (by decide)),
      UInt64.ofNat_toNat]
  | bytes b =>
    rw [encode, List.append_assoc, List.append_assoc] at h
    obtain ⟨r₁, hrest, hnext⟩ := nextField_tag hf.1 (by decide) h
    obtain ⟨r₂, hlen, hrest'⟩ := varint_append hrest
    obtain ⟨r', hb, htail⟩ := take_append hrest'
    have hlength : (UInt64.ofNat b.length).toNat = b.length := by
      exact UInt64.toNat_ofNat'.trans (Nat.mod_eq_of_lt hf.2)
    refine ⟨r', ?_, htail⟩
    rw [hnext]
    show (r₁.readValue r.pos number 2).map _ = _
    rw [readValue, hlen]
    simp only [hlength, hb]
    rfl
  | fixed32 n =>
    rw [encode, List.append_assoc] at h
    obtain ⟨r₁, hrest, hnext⟩ := nextField_tag hf.1 (by decide) h
    obtain ⟨r', hn, htail⟩ := take_toLe hrest
    refine ⟨r', ?_, htail⟩
    rw [hnext]
    show (r₁.readValue r.pos number 5).map _ = _
    rw [readValue, hn, Except.map, Except.map, fromLe_toLe (n.toNat_lt.trans_eq (by decide)),
      UInt32.ofNat_toNat]

/-! ## The loop -/

theorem rest_lt {r r' : Reader} (h : r.Onward r') : r'.rest.length < r.rest.length := by
  have := h.pos
  have := r'.within
  rw [length_rest, length_rest, h.buf] at *
  omega

/-- The loop ends by itself: rounds beyond one for each byte change nothing. -/
theorem reads_rounds {f g : ℕ} {r : Reader} (hf : r.rest.length < f) (hg : r.rest.length < g) :
    r.reads f = r.reads g := by
  induction f generalizing g r with
  | zero => omega
  | succ f ih =>
    cases g with
    | zero => omega
    | succ g =>
      rw [reads, reads]
      cases hnext : r.nextField with
      | error e => rfl
      | ok o =>
        cases o with
        | none => rfl
        | some x =>
          have hlt := rest_lt (nextField_eq_ok (v := x.1.2) hnext).1
          have hrest : x.2.reads f = x.2.reads g := ih (by omega) (by omega)
          simp only [hrest]

theorem reads_flatMap {fields : List (UInt32 × Field)} (hfields : ∀ f ∈ fields, Encodable f)
    {fuel : ℕ} {r : Reader} (hfuel : r.rest.length < fuel) (h : r.rest = fields.flatMap encode) :
    ∃ xs, r.reads fuel = .ok xs ∧ xs.map (·.2) = fields := by
  induction fields generalizing fuel r with
  | nil =>
    cases fuel with
    | zero => omega
    | succ fuel =>
      have hempty : r.isEmpty = true := by
        have := List.drop_eq_nil_iff.mp h
        rw [isEmpty, decide_eq_true this]
      refine ⟨[], ?_, rfl⟩
      rw [reads, nextField, hempty, if_pos rfl]
  | cons f fields ih =>
    cases fuel with
    | zero => omega
    | succ fuel =>
      rw [List.flatMap_cons] at h
      obtain ⟨r', hnext, hrest⟩ := nextField_encode (hfields f List.mem_cons_self) h
      have hlt := rest_lt (nextField_eq_ok (v := f.2) hnext).1
      have hlt' : r'.rest.length < fuel := by omega
      obtain ⟨xs, hxs, hfs⟩ := ih (fun g hg => hfields g (List.mem_cons_of_mem f hg)) hlt' hrest
      refine ⟨(r, f) :: xs, ?_, ?_⟩
      · rw [reads, hnext]
        simp only [hxs, Except.map]
      · rw [List.map_cons, hfs]

/-- A buffer that was read to its end. -/
theorem exact_reads {fuel : ℕ} {r : Reader} {xs : List (Reader × UInt32 × Field)}
    (h : r.reads fuel = .ok xs) :
    ∀ x ∈ xs, (Exact x.1.rest x.2.1 x.2.2 ↔ Fits x.1.rest) := by
  induction fuel generalizing r xs with
  | zero =>
    cases h
    exact nofun
  | succ fuel ih =>
    rw [reads] at h
    cases hnext : r.nextField with
    | error e =>
      rw [hnext] at h
      cases h
    | ok o =>
      rw [hnext] at h
      cases o with
      | none =>
        cases h
        exact nofun
      | some x =>
        obtain ⟨fields, hfields, rfl⟩ := map_eq_ok.mp h
        intro y hy
        rcases List.mem_cons.mp hy with rfl | hy
        · exact (nextField_eq_ok hnext).2.2
        · exact ih hfields y hy

theorem message_eq_ok {r m : Reader} {v : Field} (h : v.message r = .ok m) :
    r.depth + 1 ≤ maxDepth ∧ m = nested v.payload (r.depth + 1) := by
  unfold Field.message at h
  split at h
  · cases h
  · next hdepth =>
    refine ⟨by omega, ?_⟩
    cases v <;> exact (Except.ok.inj h).symm

/-- A message inside a field is shorter than the buffer around it, and at most so deep. -/
theorem message_lt {r r' m : Reader} {v : Field} (h : r.Onward r') (hslices : Slices r r' v)
    (hm : v.message r = .ok m) : m.buf.length < r.buf.length ∧ m.depth ≤ maxDepth := by
  have hpos := h.pos
  have hwithin := r'.within
  rw [h.buf] at hwithin
  obtain ⟨hdepth, rfl⟩ := message_eq_ok hm
  refine ⟨?_, hdepth⟩
  show v.payload.length < r.buf.length
  cases v with
  | bytes b =>
    obtain ⟨start, hstart, hend, -⟩ := hslices rfl
    omega
  | varint n => exact (Nat.zero_le _).trans_lt (hpos.trans_le hwithin)
  | fixed64 n => exact (Nat.zero_le _).trans_lt (hpos.trans_le hwithin)
  | fixed32 n => exact (Nat.zero_le _).trans_lt (hpos.trans_le hwithin)

/-- What is written is read back, every field takes its own bytes of the buffer and every loop ends.
A buffer was read as it denotes if and only if its keys and varints have the bits they are read
with. -/
theorem fields_exact (bytes : Bytes) :
    (∀ fields : List (UInt32 × Field), (∀ f ∈ fields, Encodable f) →
      ∀ fuel, (fields.flatMap encode).length < fuel →
        ∃ xs, (new (fields.flatMap encode)).reads fuel = .ok xs ∧ xs.map (·.2) = fields) ∧
    (∀ r r' : Reader, r.buf = bytes → ∀ number v, r.nextField = .ok (some ((number, v), r')) →
      r.Onward r' ∧ Slices r r' v ∧
        ∀ m, v.message r = .ok m → m.buf.length < bytes.length ∧ m.depth ≤ maxDepth) ∧
    (∀ fuel, bytes.length < fuel →
      (new bytes).reads fuel = (new bytes).reads (bytes.length + 1)) ∧
    ∀ xs, (new bytes).reads (bytes.length + 1) = .ok xs →
      ((∀ x ∈ xs, Exact x.1.rest x.2.1 x.2.2) ↔ ∀ x ∈ xs, Fits x.1.rest) := by
  refine ⟨?_, ?_, ?_, ?_⟩
  · intro fields hfields fuel hfuel
    exact reads_flatMap hfields hfuel rfl
  · rintro r r' rfl number v hnext
    obtain ⟨honward, hslices, -⟩ := nextField_eq_ok hnext
    exact ⟨honward, hslices, fun m hm => message_lt honward hslices hm⟩
  · intro fuel hfuel
    exact reads_rounds hfuel (Nat.lt_succ_self _)
  · intro xs hxs
    exact forall₂_congr (exact_reads hxs)

/-- A varint of ten bytes that denotes `2 ^ 64`, and a key of the field `2 ^ 32 + 1`. -/
def cutBytes : Bytes :=
  [0x08, 0x80, 0x80, 0x80, 0x80, 0x80, 0x80, 0x80, 0x80, 0x80, 0x02,
    0x88, 0x80, 0x80, 0x80, 0x80, 0x01, 0x05]

/-- They are read as the value 0 and as the field 1. -/
theorem fields_cut : ∃ xs, (new cutBytes).reads (cutBytes.length + 1) = .ok xs ∧
    xs.map (·.2) = [(1, .varint 0), (1, .varint 5)] ∧
    ∀ x ∈ xs, ¬ Exact x.1.rest x.2.1 x.2.2 := by
  have hreads : (new cutBytes).reads (cutBytes.length + 1)
      = .ok [(⟨cutBytes, 0, 0, by decide⟩, 1, .varint 0),
        (⟨cutBytes, 11, 0, by decide⟩, 1, .varint 5)] := by
    decide +kernel
  refine ⟨_, hreads, rfl, ?_⟩
  have hvalue : ¬ Exact cutBytes 1 (.varint 0) := by
    rintro ⟨-, h⟩
    revert h
    decide +kernel
  have hnumber : ¬ Exact (cutBytes.drop 11) 1 (.varint 5) := by
    rintro ⟨h, -⟩
    revert h
    decide +kernel
  exact List.forall_mem_cons.mpr ⟨hvalue, List.forall_mem_singleton.mpr hnumber⟩

end Reader

end LogLess.Proto
