import LogLess.Wal.Writer
import LogLess.Lib.Utf8

/-!
# The crates behind the log

The bytes `postcard` writes for a `Vec<LogRecord>` and reads back, and the CRC-32 of
`crc32fast`. The log's theorems take an arbitrary `Codec`; this is the one the agent
runs with, and what their instances are about.

A `u64`, a length and an enum's variant are LEB128 varints, a signed integer is zigzag
encoded first, a `u8` and a `bool` are one byte, an array is its bytes, an option is a
tag byte, and a string or byte string has its length in front.
-/

namespace LogLess.Wal.Postcard

open Frames

/-! ## Writing -/

/-- LEB128, at most `fuel + 1` bytes. -/
def varintFuel : ℕ → ℕ → Bytes
  | 0, n => [UInt8.ofNat n]
  | fuel + 1, n =>
    if n < 128 then [UInt8.ofNat n] else UInt8.ofNat (n % 128 + 128) :: varintFuel fuel (n / 128)

/-- A `u64` takes at most ten bytes. -/
def varint (n : ℕ) : Bytes := varintFuel 9 n

def bytes (bs : Bytes) : Bytes := varint bs.length ++ bs

def string (t : Text) : Bytes := bytes (Utf8.encode t)

def option {α : Type} (f : α → Bytes) : Option α → Bytes
  | none => [0]
  | some a => 1 :: f a

def vec {α : Type} (f : α → Bytes) (as : List α) : Bytes := varint as.length ++ as.flatMap f

def zigzag (n : ℤ) : ℕ := if 0 ≤ n then 2 * n.toNat else 2 * (-n).toNat - 1

def le64 (n : ℕ) : Bytes := le32 n ++ le32 (n / 2 ^ 32)

def attrValue : AttrValue → Bytes
  | .str s => 0 :: string s
  | .i64 n => 1 :: varint (zigzag n)
  | .f64 bits => 2 :: le64 bits.toNat
  | .bool b => [3, if b then 1 else 0]

def attr (a : Attr) : Bytes := string a.key ++ attrValue a.value

def record (r : LogRecord) : Bytes :=
  bytes r.eventId.bytes ++ varint r.timestampUnixNano ++ varint r.observedUnixNano
    ++ [r.severity.num] ++ option string r.severityText ++ string r.body
    ++ option string r.service ++ option Subtype.val r.traceId ++ option Subtype.val r.spanId
    ++ vec attr r.attributes ++ option varint r.templateId

def toStdvec (batch : Batch) : Bytes := vec record batch

/-! ## Reading -/

/-- A reader of a value off the front of a byte string. -/
abbrev Get (α : Type) := StateT Bytes Option α

def getByte : Get UInt8 := fun bs => match bs with
  | [] => none
  | b :: bs => some (b, bs)

def getTake (n : ℕ) : Get Bytes := fun bs => readFull n bs

def getArr (n : ℕ) : Get (ByteArr n) := do
  let bs ← getTake n
  if h : bs.length = n then pure ⟨bs, h⟩ else failure

def getVarintFuel : ℕ → Get ℕ
  | 0 => do
    let b ← getByte
    if b.toNat ≤ 1 then pure b.toNat else failure
  | fuel + 1 => do
    let b ← getByte
    if b.toNat < 128 then pure b.toNat
    else do
      let n ← getVarintFuel fuel
      pure (b.toNat - 128 + 128 * n)

def getVarint : Get ℕ := getVarintFuel 9

def getBytes : Get Bytes := do getTake (← getVarint)

def getString : Get Text := do
  match Utf8.strict (← getBytes) with
  | some t => pure t
  | none => failure

def getOption {α : Type} (f : Get α) : Get (Option α) := do
  match (← getByte).toNat with
  | 0 => pure none
  | 1 => some <$> f
  | _ => failure

def getMany {α : Type} (f : Get α) : ℕ → Get (List α)
  | 0 => pure []
  | n + 1 => do
    let a ← f
    let as ← getMany f n
    pure (a :: as)

def getVec {α : Type} (f : Get α) : Get (List α) := do getMany f (← getVarint)

def unzigzag (n : ℕ) : ℤ := if n % 2 = 0 then (n / 2 : ℕ) else -((n + 1) / 2 : ℕ)

def getAttrValue : Get AttrValue := do
  match ← getVarint with
  | 0 => .str <$> getString
  | 1 => (fun n => .i64 (unzigzag n)) <$> getVarint
  | 2 => (fun bs => .f64 (UInt64.ofNat (ofLe32 bs + 2 ^ 32 * ofLe32 (bs.drop 4)))) <$> getTake 8
  | 3 => do
    match (← getByte).toNat with
    | 0 => pure (.bool false)
    | 1 => pure (.bool true)
    | _ => failure
  | _ => failure

def getAttr : Get Attr := do
  let key ← getString
  let value ← getAttrValue
  pure ⟨key, value⟩

def getUuid : Get Uuid := do
  let bs ← getBytes
  if h : bs.length = 16 then pure ⟨bs, h⟩ else failure

def getRecord : Get LogRecord := do
  let eventId ← getUuid
  let timestampUnixNano ← getVarint
  let observedUnixNano ← getVarint
  let severity ← getByte
  let severityText ← getOption getString
  let body ← getString
  let service ← getOption getString
  let traceId ← getOption (getArr 16)
  let spanId ← getOption (getArr 8)
  let attributes ← getVec getAttr
  let templateId ← getOption getVarint
  pure { eventId, timestampUnixNano, observedUnixNano, severity := ⟨severity⟩, severityText, body,
         service, traceId, spanId, attributes, templateId }

/-- `postcard::from_bytes`: bytes after the value are ignored. -/
def fromBytes (bs : Bytes) : Option Batch := (getVec getRecord bs).map Prod.fst

/-! ## The checksum -/

/-- One bit of the reflected CRC-32 with polynomial `0xEDB88320`. -/
def crcBit (crc : UInt32) : UInt32 :=
  if crc &&& 1 = 1 then (crc >>> 1) ^^^ 0xEDB88320 else crc >>> 1

def crcByte (crc : UInt32) (b : UInt8) : UInt32 :=
  Nat.iterate crcBit 8 (crc ^^^ b.toUInt32)

/-- `crc32fast::hash`. -/
def hash (bs : Bytes) : UInt32 := bs.foldl crcByte 0xFFFFFFFF ^^^ 0xFFFFFFFF

/-- The codec the agent runs with. -/
def codec : Codec where
  toStdvec := toStdvec
  fromBytes := fromBytes
  hash := hash

-- the check value of the polynomial
example : hash [0x31, 0x32, 0x33, 0x34, 0x35, 0x36, 0x37, 0x38, 0x39] = 0xCBF43926 := by
  decide +kernel

/-! ## Reading inverts writing -/

/-- A reader takes `bs` off the front of any input and returns `a`. -/
def Reads {α : Type} (get : Get α) (bs : Bytes) (a : α) : Prop :=
  ∀ rest, get (bs ++ rest) = some (a, rest)

section Reads

variable {α β : Type}

theorem reads_pure (a : α) : Reads (pure a) [] a := fun _ => rfl

theorem Reads.bind {get : Get α} {f : α → Get β} {as bs : Bytes} {a : α} {b : β}
    (ha : Reads get as a) (hb : Reads (f a) bs b) : Reads (get >>= f) (as ++ bs) b := by
  intro rest
  change (get (as ++ bs ++ rest)).bind (fun p => f p.1 p.2) = _
  rw [List.append_assoc, ha]
  exact hb rest

/-- A reader followed by a step that takes no input. -/
theorem Reads.check {get : Get α} {f : α → Get β} {as : Bytes} {a : α} {b : β}
    (ha : Reads get as a) (hb : Reads (f a) [] b) : Reads (get >>= f) as b := by
  have h := ha.bind hb
  rwa [List.append_nil] at h

theorem Reads.bind_pure {get : Get α} {f : α → β} {as : Bytes} {a : α} (ha : Reads get as a) :
    Reads (get >>= fun x => pure (f x)) as (f a) := ha.check (reads_pure (f a))

theorem Reads.map {get : Get α} {f : α → β} {as : Bytes} {a : α} (ha : Reads get as a) :
    Reads (f <$> get) as (f a) := ha.bind_pure

theorem reads_byte (b : UInt8) : Reads getByte [b] b := fun _ => rfl

theorem reads_take (bs : Bytes) : Reads (getTake bs.length) bs bs :=
  fun rest => readFull_append bs rest rfl

theorem reads_varintFuel (fuel : ℕ) {n : ℕ} (h : n < 2 ^ (7 * fuel + 1)) :
    Reads (getVarintFuel fuel) (varintFuel fuel n) n := by
  induction fuel generalizing n with
  | zero =>
    have hb : (UInt8.ofNat n).toNat = n := Utf8.toNat_ofNat_of_lt (by omega)
    refine (reads_byte _).check ?_
    rw [hb, if_pos (by omega)]
    exact reads_pure n
  | succ fuel ih =>
    rw [varintFuel, getVarintFuel]
    split
    · next hlt =>
      refine (reads_byte _).check ?_
      rw [Utf8.toNat_ofNat_of_lt (by omega), if_pos hlt]
      exact reads_pure n
    · -- seven bits now, the rest from the bytes that follow
      have hpow : 2 ^ (7 * (fuel + 1) + 1) = 128 * 2 ^ (7 * fuel + 1) := by ring
      have hrest := ih (n := n / 128) (by omega)
      refine (reads_byte _).bind ?_
      rw [Utf8.toNat_ofNat_of_lt (by omega), if_neg (by omega)]
      refine hrest.check ?_
      rw [show n % 128 + 128 - 128 + 128 * (n / 128) = n by omega]
      exact reads_pure n

theorem reads_varint {n : ℕ} (h : n < 2 ^ 64) : Reads getVarint (varint n) n :=
  reads_varintFuel 9 h

theorem reads_bytes {bs : Bytes} (h : bs.length < 2 ^ 64) : Reads getBytes (bytes bs) bs :=
  (reads_varint h).bind (reads_take bs)

theorem reads_string {t : Text} (h : t.len < 2 ^ 64) : Reads getString (string t) t := by
  rw [Text.len, ← Utf8.length_encode] at h
  refine (reads_bytes h).check ?_
  rw [Utf8.strict_encode]
  exact reads_pure t

theorem reads_arr {n : ℕ} (a : ByteArr n) : Reads (getArr n) a.val a := by
  obtain ⟨bs, rfl⟩ := a
  refine (reads_take bs).check ?_
  rw [dif_pos rfl]
  exact reads_pure _

theorem reads_option {get : Get α} {put : α → Bytes} {o : Option α}
    (h : ∀ a ∈ o, Reads get (put a) a) : Reads (getOption get) (option put o) o := by
  cases o with
  | none => exact fun _ => rfl
  | some a => exact (reads_byte 1).bind ((h a rfl).map (f := some))

theorem reads_many {get : Get α} {put : α → Bytes} {as : List α}
    (h : ∀ a ∈ as, Reads get (put a) a) : Reads (getMany get as.length) (as.flatMap put) as := by
  induction as with
  | nil => exact reads_pure []
  | cons a as ih =>
    have htail := ih fun x hx => h x (List.mem_cons_of_mem _ hx)
    exact (h a List.mem_cons_self).bind (htail.bind_pure (f := fun as => a :: as))

theorem reads_vec {get : Get α} {put : α → Bytes} {as : List α} (hlen : as.length < 2 ^ 64)
    (h : ∀ a ∈ as, Reads get (put a) a) : Reads (getVec get) (vec put as) as :=
  (reads_varint hlen).bind (reads_many h)

end Reads

/-- What the types of the source say of an attribute value. -/
def AttrValue.InRange : AttrValue → Prop
  | .str s => s.len < 2 ^ 64
  | .i64 n => -2 ^ 63 ≤ n ∧ n < 2 ^ 63
  | .f64 _ => True
  | .bool _ => True

/-- What the types of the source say of a record: its integers are `u64`s and a string is
no longer than an address space. -/
structure InRange (r : LogRecord) : Prop where
  timestamp : r.timestampUnixNano < 2 ^ 64
  observed : r.observedUnixNano < 2 ^ 64
  severityText : ∀ t ∈ r.severityText, t.len < 2 ^ 64
  body : r.body.len < 2 ^ 64
  service : ∀ t ∈ r.service, t.len < 2 ^ 64
  attributes : r.attributes.length < 2 ^ 64
  attr : ∀ a ∈ r.attributes, a.key.len < 2 ^ 64 ∧ AttrValue.InRange a.value
  template : ∀ n ∈ r.templateId, n < 2 ^ 64

theorem inRange_new (id : Uuid) {ts : ℕ} (sev : Severity) {body : Text} (hts : ts < 2 ^ 64)
    (hbody : body.len < 2 ^ 64) : InRange (.new id ts sev body) :=
  ⟨hts, hts, by simp [LogRecord.new], hbody, by simp [LogRecord.new], by simp [LogRecord.new],
    by simp [LogRecord.new], by simp [LogRecord.new]⟩

theorem unzigzag_zigzag (n : ℤ) : unzigzag (zigzag n) = n := by
  unfold unzigzag zigzag
  split <;> split <;> omega

theorem zigzag_lt {n : ℤ} (h : -2 ^ 63 ≤ n ∧ n < 2 ^ 63) : zigzag n < 2 ^ 64 := by
  unfold zigzag
  split <;> omega

theorem ofLe32_le64 (n : ℕ) (h : n < 2 ^ 64) :
    ofLe32 (le64 n) + 2 ^ 32 * ofLe32 ((le64 n).drop 4) = n := by
  have h1 : ofLe32 (le64 n) = n % 2 ^ 32 := ofLe32_le32_append ..
  have h2 : (le64 n).drop 4 = le32 (n / 2 ^ 32) ++ [] := by simp [le64, le32]
  rw [h1, h2, ofLe32_le32_append]
  omega

theorem reads_attrValue {v : AttrValue} (h : AttrValue.InRange v) :
    Reads getAttrValue (attrValue v) v := by
  -- the variant index is a one-byte varint
  have tag : ∀ n < 4, Reads getVarint [UInt8.ofNat n] n := by
    intro n hn
    have hv := reads_varint (n := n) (by omega)
    rwa [varint, varintFuel, if_pos (by omega)] at hv
  cases v with
  | str s => exact (tag 0 (by omega)).bind ((reads_string h).map (f := AttrValue.str))
  | i64 n =>
    have hn := (reads_varint (zigzag_lt h)).map (f := fun m => AttrValue.i64 (unzigzag m))
    simp only [unzigzag_zigzag] at hn
    exact (tag 1 (by omega)).bind hn
  | f64 bits =>
    have hb := (reads_take (le64 bits.toNat)).map (f := fun bs : Bytes =>
      AttrValue.f64 (UInt64.ofNat (ofLe32 bs + 2 ^ 32 * ofLe32 (bs.drop 4))))
    simp only [ofLe32_le64 _ bits.toNat_lt, UInt64.ofNat_toNat] at hb
    exact (tag 2 (by omega)).bind hb
  | bool b =>
    refine (tag 3 (by omega)).bind ((reads_byte (if b then 1 else 0)).check ?_)
    cases b <;> exact reads_pure _

theorem reads_attr {a : Attr} (hk : a.key.len < 2 ^ 64) (hv : AttrValue.InRange a.value) :
    Reads getAttr (attr a) a :=
  (reads_string hk).bind ((reads_attrValue hv).bind_pure (f := fun v => Attr.mk a.key v))

theorem reads_uuid (u : Uuid) : Reads getUuid (bytes u.bytes) u := by
  have hlen := u.length_bytes
  refine (reads_bytes (by omega)).check ?_
  rw [dif_pos hlen]
  exact reads_pure _

theorem reads_record {r : LogRecord} (h : InRange r) : Reads getRecord (record r) r := by
  simp only [record, List.append_assoc]
  refine (reads_uuid r.eventId).bind ?_
  refine (reads_varint h.timestamp).bind ?_
  refine (reads_varint h.observed).bind ?_
  refine (reads_byte r.severity.num).bind ?_
  refine (reads_option fun t ht => reads_string (h.severityText t ht)).bind ?_
  refine (reads_string h.body).bind ?_
  refine (reads_option fun t ht => reads_string (h.service t ht)).bind ?_
  refine (reads_option fun a _ => reads_arr a).bind ?_
  refine (reads_option fun a _ => reads_arr a).bind ?_
  refine (reads_vec h.attributes fun a ha =>
    reads_attr (h.attr a ha).1 (h.attr a ha).2).bind ?_
  exact (reads_option fun n hn => reads_varint (h.template n hn)).bind_pure (f := fun n =>
    { r with templateId := n })

/-- Decoding inverts encoding. -/
theorem fromBytes_toStdvec {batch : Batch} (hlen : batch.length < 2 ^ 64)
    (h : ∀ r ∈ batch, InRange r) : fromBytes (toStdvec batch) = some batch := by
  have hread := reads_vec hlen (fun r hr => reads_record (h r hr)) []
  rw [List.append_nil] at hread
  rw [fromBytes, toStdvec, hread]
  rfl

/-! ## Lengths -/

theorem varintFuel_ne_nil (fuel n : ℕ) : varintFuel fuel n ≠ [] := by
  cases fuel with
  | zero => simp [varintFuel]
  | succ fuel =>
    rw [varintFuel]
    split <;> simp

theorem length_varintFuel_le (fuel n : ℕ) : (varintFuel fuel n).length ≤ fuel + 1 := by
  induction fuel generalizing n with
  | zero => simp [varintFuel]
  | succ fuel ih =>
    rw [varintFuel]
    split
    · simp
    · simpa using ih (n / 128)

/-- A `Vec` starts with its length, so its encoding is never empty. -/
theorem toStdvec_ne_nil (batch : Batch) : toStdvec batch ≠ [] := by
  intro h
  exact varintFuel_ne_nil 9 batch.length (List.append_eq_nil_iff.mp h).1

/-- The codec the agent runs with inverts on every batch of records whose fields are in
the ranges of their types. -/
theorem codec_inverts {bs : List Batch}
    (h : ∀ b ∈ bs, b.length < 2 ^ 64 ∧ ∀ r ∈ b, InRange r) : codec.Inverts bs where
  fromBytes_toStdvec b hb := fromBytes_toStdvec (h b hb).1 (h b hb).2
  toStdvec_ne_nil b _ := toStdvec_ne_nil b

/-- A record takes its body and something less than two hundred bytes around it, when
the fields beside the body are the ones `LogRecord::new` gives. -/
theorem length_toStdvec_new (id : Uuid) (ts : ℕ) (sev : Severity) (body : Text) :
    (Utf8.encode body).length ≤ (toStdvec [LogRecord.new id ts sev body]).length ∧
      (toStdvec [LogRecord.new id ts sev body]).length ≤ (Utf8.encode body).length + 100 := by
  have h1 := length_varintFuel_le 9 1
  have h2 := length_varintFuel_le 9 16
  have h3 := length_varintFuel_le 9 ts
  have h4 := length_varintFuel_le 9 (Utf8.encode body).length
  have h5 := length_varintFuel_le 9 0
  simp only [toStdvec, vec, record, LogRecord.new, bytes, string, option, varint,
    List.flatMap_cons, List.flatMap_nil, List.length_append, List.length_cons, List.length_nil,
    id.length_bytes, Nat.zero_add]
  omega

end LogLess.Wal.Postcard
