import Mathlib.Data.List.Basic
import Mathlib.Data.List.TakeDrop
import Mathlib.Tactic

/-!
# Length-prefixed, checksummed frames

An append-only log is a byte string of frames

  `len : u32 little endian, crc : u32 little endian, payload[len]`

written one after another. A reader takes frames from the front until one is missing,
cut short, refused by its length, fails its checksum or does not parse; what follows
that point is not read.

The checksum, the lengths the reader accepts and the payload parser are parameters.
The two facts a log needs are `scan_frames_append` (a reader of whole frames followed
by something unreadable returns exactly those frames) and `take_frames` (cutting such a
log at any byte leaves whole frames and a torn piece of the next one).
-/

namespace Frames

abbrev Bytes := List UInt8

/-! ## Little-endian words -/

/-- The low 32 bits of `n`, least significant byte first. -/
def le32 (n : ℕ) : Bytes :=
  [UInt8.ofNat n, UInt8.ofNat (n / 256), UInt8.ofNat (n / 65536), UInt8.ofNat (n / 16777216)]

/-- The word at the front of `bytes`; bytes that are missing count as zero. -/
def ofLe32 (bytes : Bytes) : ℕ :=
  (bytes.getD 0 0).toNat + 256 * (bytes.getD 1 0).toNat + 65536 * (bytes.getD 2 0).toNat
    + 16777216 * (bytes.getD 3 0).toNat

@[simp] theorem length_le32 (n : ℕ) : (le32 n).length = 4 := rfl

theorem ofLe32_le32_append (n : ℕ) (rest : Bytes) : ofLe32 (le32 n ++ rest) = n % 2 ^ 32 := by
  simp only [ofLe32, le32, List.cons_append, List.getD_cons_zero, List.getD_cons_succ,
    UInt8.toNat_ofNat']
  omega

/-! ## Writing and reading one frame -/

variable (crc : Bytes → UInt32)

/-- The frame of one payload. -/
def frame (payload : Bytes) : Bytes :=
  le32 payload.length ++ le32 (crc payload).toNat ++ payload

/-- The frames of a list of payloads, one after another. -/
def frames (payloads : List Bytes) : Bytes := payloads.flatMap (frame crc)

@[simp] theorem length_frame (p : Bytes) : (frame crc p).length = 8 + p.length := by
  simp only [frame, List.length_append, length_le32]

@[simp] theorem frames_nil : frames crc [] = [] := rfl

@[simp] theorem frames_cons (p : Bytes) (ps : List Bytes) :
    frames crc (p :: ps) = frame crc p ++ frames crc ps := rfl

@[simp] theorem frames_append (ps qs : List Bytes) :
    frames crc (ps ++ qs) = frames crc ps ++ frames crc qs := List.flatMap_append

variable {crc} in
theorem frames_mono {ps qs : List Bytes} (h : ps <+: qs) : frames crc ps <+: frames crc qs := by
  obtain ⟨rs, rfl⟩ := h
  exact ⟨frames crc rs, (frames_append crc ps rs).symm⟩

/-- `n` bytes off the front, if there are that many. -/
def readFull (n : ℕ) (bytes : Bytes) : Option (Bytes × Bytes) :=
  if n ≤ bytes.length then some (bytes.take n, bytes.drop n) else none

theorem readFull_append {n : ℕ} (a b : Bytes) (h : a.length = n) :
    readFull n (a ++ b) = some (a, b) := by
  simp [readFull, ← h]

theorem readFull_short {n : ℕ} {bytes : Bytes} (h : bytes.length < n) :
    readFull n bytes = none := by
  simp [readFull, h]

variable {β : Type} (okLen : ℕ → Bool) (parse : Bytes → Option β)

/-- One frame off the front: the payload, what it parses to and the bytes after it. -/
def readFrame (bytes : Bytes) : Option (Bytes × β × Bytes) := do
  let (head, rest) ← readFull 8 bytes
  let len := ofLe32 head
  let sum := ofLe32 (head.drop 4)
  if okLen len then
    let (payload, rest) ← readFull len rest
    if (crc payload).toNat = sum then
      let value ← parse payload
      return (payload, value, rest)
    else none
  else none

theorem head_frame (p rest : Bytes) :
    readFull 8 (frame crc p ++ rest)
      = some (le32 p.length ++ le32 (crc p).toNat, p ++ rest) := by
  rw [frame, List.append_assoc]
  exact readFull_append _ _ rfl

variable {crc okLen parse}

/-- A whole frame whose length and payload the reader accepts is read back. -/
theorem readFrame_frame {p : Bytes} {b : β} (hlen : p.length < 2 ^ 32)
    (hok : okLen p.length = true) (hp : parse p = some b) (rest : Bytes) :
    readFrame crc okLen parse (frame crc p ++ rest) = some (p, b, rest) := by
  have hl : ofLe32 (le32 p.length ++ le32 (crc p).toNat) = p.length := by
    rw [ofLe32_le32_append, Nat.mod_eq_of_lt hlen]
  have hc : ofLe32 ((le32 p.length ++ le32 (crc p).toNat).drop 4) = (crc p).toNat := by
    have hd : (le32 p.length ++ le32 (crc p).toNat).drop 4 = le32 (crc p).toNat ++ [] := by
      simp [le32]
    rw [hd, ofLe32_le32_append, Nat.mod_eq_of_lt (crc p).toNat_lt]
  simp only [readFrame, head_frame, Option.bind_eq_bind, Option.bind_some, hl, hok, if_true,
    readFull_append p rest rfl, hc, hp, Option.pure_def]

/-- A frame whose length the reader refuses ends the log. -/
theorem readFrame_refused {p : Bytes} (hlen : p.length < 2 ^ 32)
    (hok : okLen p.length = false) (rest : Bytes) :
    readFrame crc okLen parse (frame crc p ++ rest) = none := by
  have hl : ofLe32 (le32 p.length ++ le32 (crc p).toNat) = p.length := by
    rw [ofLe32_le32_append, Nat.mod_eq_of_lt hlen]
  simp [readFrame, head_frame, hl, hok]

@[simp] theorem readFrame_nil : readFrame crc okLen parse [] = none := by
  simp [readFrame, readFull]

/-- A frame cut short is not read, whatever the checksum. -/
theorem readFrame_torn {p t : Bytes} (hlen : p.length < 2 ^ 32) (hpre : t <+: frame crc p)
    (hne : t ≠ frame crc p) : readFrame crc okLen parse t = none := by
  obtain ⟨u, hu⟩ := hpre
  have hlt : t.length < 8 + p.length := by
    have hul : u ≠ [] := by
      rintro rfl
      exact hne (by simpa using hu)
    have hsum := congrArg List.length hu
    simp only [List.length_append, length_frame] at hsum
    have := List.length_pos_iff.mpr hul
    omega
  by_cases h8 : t.length < 8
  · simp [readFrame, readFull_short h8]
  · -- the head is whole and names a payload that is not all there
    have ht : t = (le32 p.length ++ le32 (crc p).toNat) ++ t.drop 8 := by
      have h1 : t.take 8 = (frame crc p).take 8 := by
        rw [← hu, List.take_append_of_le_length (by omega)]
      have h2 : (frame crc p).take 8 = le32 p.length ++ le32 (crc p).toNat := by
        simp [frame, le32]
      rw [← h2, ← h1, List.take_append_drop]
    have hl : ofLe32 (le32 p.length ++ le32 (crc p).toNat) = p.length := by
      rw [ofLe32_le32_append, Nat.mod_eq_of_lt hlen]
    have hshort : (t.drop 8).length < p.length := by
      rw [List.length_drop]
      omega
    have hhead := readFull_append (n := 8) (le32 p.length ++ le32 (crc p).toNat) (t.drop 8) rfl
    rw [← ht] at hhead
    simp only [readFrame, hhead, Option.bind_eq_bind, Option.bind_some, hl,
      readFull_short hshort, Option.bind_none, ite_self]

/-- A frame that is read is at least a head long. -/
theorem readFrame_length {bytes p rest : Bytes} {b : β}
    (h : readFrame crc okLen parse bytes = some (p, b, rest)) :
    bytes.length = 8 + p.length + rest.length := by
  simp only [readFrame, Option.bind_eq_bind, Option.bind_eq_some_iff, Prod.exists] at h
  obtain ⟨head, r1, h1, h⟩ := h
  split at h
  · simp only [Option.bind_eq_some_iff, Prod.exists] at h
    obtain ⟨q, r2, h2, h⟩ := h
    split at h
    · obtain ⟨v, -, h⟩ := Option.bind_eq_some_iff.mp h
      simp only [Option.pure_def, Option.some.injEq, Prod.mk.injEq] at h
      obtain ⟨rfl, -, rfl⟩ := h
      simp only [readFull, Option.ite_none_right_eq_some, Option.some.injEq,
        Prod.mk.injEq] at h1 h2
      obtain ⟨hle1, -, rfl⟩ := h1
      obtain ⟨hle2, rfl, rfl⟩ := h2
      simp only [List.length_take, List.length_drop] at hle2 ⊢
      omega
    · cases h
  · cases h

/-- A frame is read just as well when the log is cut off somewhere behind it. -/
theorem readFrame_take {bytes p rest : Bytes} {b : β}
    (h : readFrame crc okLen parse bytes = some (p, b, rest)) (k : ℕ) :
    readFrame crc okLen parse (bytes.take (8 + (p.length + k))) = some (p, b, rest.take k) := by
  simp only [readFrame, Option.bind_eq_bind, Option.bind_eq_some_iff, Prod.exists] at h
  obtain ⟨head, r1, h1, h⟩ := h
  split at h
  · next hok =>
    simp only [Option.bind_eq_some_iff, Prod.exists] at h
    obtain ⟨q, r2, h2, h⟩ := h
    split at h
    · next hcrc =>
      obtain ⟨v, hv, h⟩ := Option.bind_eq_some_iff.mp h
      simp only [Option.pure_def, Option.some.injEq, Prod.mk.injEq] at h
      obtain ⟨rfl, rfl, rfl⟩ := h
      simp only [readFull, Option.ite_none_right_eq_some, Option.some.injEq,
        Prod.mk.injEq] at h1 h2
      obtain ⟨hle1, rfl, rfl⟩ := h1
      obtain ⟨hle2, rfl, rfl⟩ := h2
      have hlen : ((bytes.drop 8).take (ofLe32 (bytes.take 8))).length = ofLe32 (bytes.take 8) := by
        rw [List.length_take]
        omega
      rw [hlen]
      have hhead : (bytes.take (8 + (ofLe32 (bytes.take 8) + k))).take 8 = bytes.take 8 := by
        rw [List.take_take, Nat.min_eq_left (by omega)]
      have htail : (bytes.take (8 + (ofLe32 (bytes.take 8) + k))).drop 8
          = (bytes.drop 8).take (ofLe32 (bytes.take 8) + k) := by
        rw [List.drop_take]
        congr 1
        omega
      have hpayload : ((bytes.drop 8).take (ofLe32 (bytes.take 8) + k)).take
          (ofLe32 (bytes.take 8)) = (bytes.drop 8).take (ofLe32 (bytes.take 8)) := by
        rw [List.take_take, Nat.min_eq_left (by omega)]
      have hrest : ((bytes.drop 8).take (ofLe32 (bytes.take 8) + k)).drop (ofLe32 (bytes.take 8))
          = ((bytes.drop 8).drop (ofLe32 (bytes.take 8))).take k := by
        rw [List.drop_take]
        congr 1
        omega
      have hread1 : readFull 8 (bytes.take (8 + (ofLe32 (bytes.take 8) + k)))
          = some (bytes.take 8, (bytes.drop 8).take (ofLe32 (bytes.take 8) + k)) := by
        rw [readFull, if_pos (by rw [List.length_take]; omega), hhead, htail]
      have hread2 : readFull (ofLe32 (bytes.take 8))
            ((bytes.drop 8).take (ofLe32 (bytes.take 8) + k))
          = some ((bytes.drop 8).take (ofLe32 (bytes.take 8)),
            ((bytes.drop 8).drop (ofLe32 (bytes.take 8))).take k) := by
        rw [readFull, if_pos (by rw [List.length_take]; omega), hpayload, hrest]
      simp only [readFrame, Option.bind_eq_bind, hread1, Option.bind_some, hok, if_true, hread2,
        hcrc, hv, Option.pure_def]
    · cases h
  · cases h

/-! ## Reading a whole log -/

variable (crc okLen parse)

/-- The frames a reader takes from `bytes`, with at most `fuel` reads. -/
def scanFuel : ℕ → Bytes → List (Bytes × β)
  | 0, _ => []
  | fuel + 1, bytes =>
    match readFrame crc okLen parse bytes with
    | some (p, b, rest) => (p, b) :: scanFuel fuel rest
    | none => []

/-- The frames a reader takes from the front of `bytes`. Every frame is longer than its
head, so there are no more of them than bytes. -/
def scan (bytes : Bytes) : List (Bytes × β) := scanFuel crc okLen parse bytes.length bytes

variable {crc okLen parse}

theorem scanFuel_enough {n m : ℕ} {bytes : Bytes} (hn : bytes.length ≤ n)
    (hm : bytes.length ≤ m) :
    scanFuel crc okLen parse n bytes = scanFuel crc okLen parse m bytes := by
  induction n generalizing m bytes with
  | zero =>
    have hnil : bytes = [] := List.length_eq_zero_iff.mp (by omega)
    cases m <;> simp [scanFuel, hnil]
  | succ n ih =>
    cases m with
    | zero =>
      have hnil : bytes = [] := List.length_eq_zero_iff.mp (by omega)
      simp [scanFuel, hnil]
    | succ m =>
      simp only [scanFuel]
      cases h : readFrame crc okLen parse bytes with
      | none => rfl
      | some v =>
        obtain ⟨p, b, rest⟩ := v
        have hlen := readFrame_length h
        have hrest : scanFuel crc okLen parse n rest = scanFuel crc okLen parse m rest :=
          ih (by omega) (by omega)
        simp only [hrest]

theorem scan_of_none {bytes : Bytes} (h : readFrame crc okLen parse bytes = none) :
    scan crc okLen parse bytes = [] := by
  rw [scan]
  cases bytes with
  | nil => rfl
  | cons x xs => simp [scanFuel, h]

theorem scan_of_some {bytes p rest : Bytes} {b : β}
    (h : readFrame crc okLen parse bytes = some (p, b, rest)) :
    scan crc okLen parse bytes = (p, b) :: scan crc okLen parse rest := by
  have hlen := readFrame_length h
  have hpos : bytes.length = (bytes.length - 1) + 1 := by omega
  rw [scan, hpos]
  simp only [scanFuel, h]
  rw [scan, scanFuel_enough (n := bytes.length - 1) (m := rest.length) (by omega) le_rfl]

/-- A log cut off behind the last frame that is read reads as it did. -/
theorem scan_take (bytes : Bytes) :
    scan crc okLen parse (bytes.take ((scan crc okLen parse bytes).map fun x => 8 + x.1.length).sum)
      = scan crc okLen parse bytes := by
  induction hn : bytes.length using Nat.strong_induction_on generalizing bytes with
  | _ n ih =>
    cases hread : readFrame crc okLen parse bytes with
    | none =>
      rw [scan_of_none hread, List.map_nil, List.sum_nil, List.take_zero,
        scan_of_none readFrame_nil]
    | some v =>
      obtain ⟨p, b, rest⟩ := v
      have hlen := readFrame_length hread
      rw [scan_of_some hread, List.map_cons, List.sum_cons, Nat.add_assoc,
        scan_of_some (readFrame_take hread _), ih rest.length (by omega) rest rfl]

/-- A reader of whole, acceptable frames followed by `tail` returns them and goes on. -/
theorem scan_frames_append {ps : List (Bytes × β)} (tail : Bytes)
    (hps : ∀ x ∈ ps, x.1.length < 2 ^ 32 ∧ okLen x.1.length = true ∧ parse x.1 = some x.2) :
    scan crc okLen parse (frames crc (ps.map Prod.fst) ++ tail)
      = ps ++ scan crc okLen parse tail := by
  induction ps with
  | nil => rfl
  | cons x ps ih =>
    obtain ⟨p, b⟩ := x
    obtain ⟨hlen, hok, hp⟩ := hps (p, b) List.mem_cons_self
    rw [List.map_cons, frames_cons, List.append_assoc,
      scan_of_some (readFrame_frame hlen hok hp _),
      ih (fun y hy => hps y (List.mem_cons_of_mem _ hy)), List.cons_append]

/-! ## Cutting a log -/

variable (crc) in
/-- A log of frames cut at any byte is some whole frames and a torn piece of the next. -/
theorem take_frames (ps : List Bytes) (k : ℕ) :
    ∃ j t, (frames crc ps).take k = frames crc (ps.take j) ++ t ∧ j ≤ ps.length ∧
      (t = [] ∨ ∃ p ∈ ps[j]?, t <+: frame crc p ∧ t ≠ frame crc p) := by
  induction ps generalizing k with
  | nil => exact ⟨0, [], by simp, le_rfl, .inl rfl⟩
  | cons p ps ih =>
    by_cases hk : k < (frame crc p).length
    · refine ⟨0, (frame crc p).take k, ?_, Nat.zero_le _, .inr ⟨p, rfl, List.take_prefix _ _, ?_⟩⟩
      · simp [List.take_append_of_le_length (le_of_lt hk)]
      · intro hall
        have := congrArg List.length hall
        rw [List.length_take] at this
        omega
    · obtain ⟨j, t, htake, hj, ht⟩ := ih (k - (frame crc p).length)
      refine ⟨j + 1, t, ?_, by simpa using hj, ?_⟩
      · rw [frames_cons, List.take_append, List.take_of_length_le (by omega), htake,
          List.take_succ_cons, frames_cons, List.append_assoc]
      · simpa using ht

/-- Frames that lie wholly before the cut survive it. -/
theorem le_of_take_frames {ps : List Bytes} {k j m : ℕ} {t : Bytes}
    (htake : (frames crc ps).take k = frames crc (ps.take j) ++ t)
    (ht : t = [] ∨ ∃ p ∈ ps[j]?, t <+: frame crc p ∧ t ≠ frame crc p)
    (hm : m ≤ ps.length) (hk : (frames crc (ps.take m)).length ≤ k) : m ≤ j := by
  by_contra hlt
  push Not at hlt
  -- the cut log holds frame `j` whole, so `t` is at least that long
  have hj : j < ps.length := by omega
  have hpre : frames crc (ps.take (j + 1)) <+: (frames crc ps).take k := by
    have h1 : frames crc (ps.take (j + 1)) <+: frames crc (ps.take m) :=
      frames_mono (List.take_prefix_take_left (by omega))
    have h2 : frames crc (ps.take m) <+: (frames crc ps).take k := by
      rw [List.prefix_take_iff]
      exact ⟨frames_mono (List.take_prefix m ps), hk⟩
    exact h1.trans h2
  have hget : ps[j]? = some ps[j] := List.getElem?_eq_getElem hj
  have hlen := hpre.length_le
  rw [htake, List.take_add_one, hget] at hlen
  simp only [Option.toList_some, frames_append, List.length_append, frames_cons, frames_nil,
    List.append_nil] at hlen
  rcases ht with rfl | ⟨p, hp, hpt, hne⟩
  · simp at hlen
  · rw [hget] at hp
    obtain rfl : ps[j] = p := by simpa using hp
    have heq := hpt.eq_of_length_le (by omega)
    exact hne heq

end Frames
