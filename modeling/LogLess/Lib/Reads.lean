import LogLess.Lib.Frames
import Mathlib.Control.Monad.Basic

/-!
# Reading from a source that comes in pieces

A `Source` is what was read and is not used yet, and the reads to come. `await` looks for something
at the front of what was read and reads on until it is there, or too much is read without it. A
`Scanner` says what is looked for: it finds the same thing with exactly the bytes that it takes and
with anything behind them, and nothing with less.

A reader is `Steady` if its result does not depend on how the source comes in pieces, but for the
limits: it is either a limit, or what the reader makes of the source in one piece; and if nothing is
refused byte by byte, nothing is refused in any other pieces. The rules are those of the monad:
`Steady.pure`, `Steady.bind`, `Steady.throw`, and `steady_await` for a scanner.
-/

namespace Reads

open Frames (Bytes)

structure Source where
  buf : Bytes
  reads : List Bytes

namespace Source

variable (s : Source)

/-- All bytes of the source. -/
def whole : Bytes := s.buf ++ s.reads.flatten

/-- The source in one piece. -/
def gathered : Source := ⟨s.whole, []⟩

/-- The source byte by byte. -/
def bytewise : Source := ⟨[], s.whole.map fun b => [b]⟩

theorem whole_gathered : s.gathered.whole = s.whole := List.append_nil _

theorem flatten_singletons (bytes : Bytes) : (bytes.map fun b => [b]).flatten = bytes := by
  induction bytes with
  | nil => rfl
  | cons b bytes ih => rw [List.map_cons, List.flatten_cons, ih, List.singleton_append]

theorem whole_bytewise : s.bytewise.whole = s.whole := by
  rw [whole, bytewise, List.nil_append]
  exact flatten_singletons _

variable {s}

theorem gathered_inj {t : Source} : s.gathered = t.gathered ↔ s.whole = t.whole := by
  simp [gathered]

theorem bytewise_of_whole {t : Source} (h : s.whole = t.whole) : s.bytewise = t.bytewise := by
  rw [bytewise, h, bytewise]

end Source

/-- What is found at the front of some bytes, and how many of them it takes. -/
structure Scanner (α : Type) where
  scan : Bytes → Option (α × ℕ)
  fits : ∀ {bytes a n}, scan bytes = some (a, n) → n ≤ bytes.length
  stable : ∀ {bytes a n}, scan bytes = some (a, n) → ∀ more,
    scan (bytes.take n ++ more) = some (a, n)
  late : ∀ {bytes a n}, scan bytes = some (a, n) → ∀ k < n, scan (bytes.take k) = none

variable {ε α β : Type}

/-- The error of a limit that is passed. -/
def overrun (limit : Option (ℕ × ε)) (buf : Bytes) : Option ε :=
  limit.bind fun l => if l.1 < buf.length then some l.2 else none

/-- Read on until something is found. -/
def awaitFrom (sc : Scanner α) (limit : Option (ℕ × ε)) (ended : ε) :
    Bytes → List Bytes → Except ε (α × Source)
  | buf, reads =>
    match sc.scan buf with
    | some (a, n) => .ok (a, ⟨buf.drop n, reads⟩)
    | none =>
      match overrun limit buf with
      | some e => .error e
      | none =>
        match reads with
        | [] => .error ended
        | read :: reads => awaitFrom sc limit ended (buf ++ read) reads

/-- A reader: what it makes of a source, and what it leaves of it. -/
abbrev Reader (ε α : Type) := StateT Source (Except ε) α

def await (sc : Scanner α) (limit : Option (ℕ × ε)) (ended : ε) : Reader ε α :=
  fun s => awaitFrom sc limit ended s.buf s.reads

/-- A reader that may look at how much there is. -/
def sized (f : ℕ → Reader ε α) : Reader ε α := fun s => f s.whole.length s

namespace Scanner

variable (sc : Scanner α)

theorem scan_append {bytes : Bytes} {a : α} {n : ℕ} (h : sc.scan bytes = some (a, n))
    (more : Bytes) : sc.scan (bytes ++ more) = some (a, n) := by
  have hsplit : bytes ++ more = bytes.take n ++ (bytes.drop n ++ more) := by
    rw [← List.append_assoc, List.take_append_drop]
  rw [hsplit]
  exact sc.stable h _

/-- Nothing is found in less than what it takes. -/
theorem scan_short {bytes short : Bytes} {a : α} {n : ℕ} (h : sc.scan bytes = some (a, n))
    (hshort : short <+: bytes) (hlength : short.length < n) : sc.scan short = none := by
  rw [List.prefix_iff_eq_take.mp hshort]
  exact sc.late h _ hlength

theorem scan_long {bytes long : Bytes} {a : α} {n : ℕ} (h : sc.scan bytes = some (a, n))
    (hlong : long <+: bytes) (hlength : n ≤ long.length) : sc.scan long = some (a, n) := by
  have htake : long.take n = bytes.take n := by
    rw [List.prefix_iff_eq_take.mp hlong, List.take_take, Nat.min_eq_left hlength]
  have hfound := sc.stable h (long.drop n)
  rwa [← htake, List.take_append_drop] at hfound

end Scanner

variable (sc : Scanner α) (limit : Option (ℕ × ε)) (ended : ε)

/-- What is awaited and comes is what the whole source begins with. -/
theorem awaitFrom_ok {buf : Bytes} {reads : List Bytes} {a : α} {s : Source}
    (h : awaitFrom sc limit ended buf reads = .ok (a, s)) :
    ∃ n, sc.scan (buf ++ reads.flatten) = some (a, n) ∧
      s.whole = (buf ++ reads.flatten).drop n := by
  induction reads generalizing buf with
  | nil =>
    rw [awaitFrom] at h
    split at h
    · next a' n hscan =>
      cases h
      refine ⟨n, ?_, ?_⟩
      · rw [List.flatten_nil, List.append_nil]
        exact hscan
      · rw [Source.whole, List.flatten_nil, List.append_nil, List.append_nil]
    · split at h <;> cases h
  | cons read reads ih =>
    rw [awaitFrom] at h
    split at h
    · next a' n hscan =>
      cases h
      refine ⟨n, sc.scan_append hscan _, ?_⟩
      rw [Source.whole, List.drop_append_of_le_length (sc.fits hscan)]
    · split at h
      · cases h
      · obtain ⟨n, hn, hwhole⟩ := ih h
        rw [List.append_assoc] at hn hwhole
        exact ⟨n, hn, hwhole⟩

/-- What is awaited and does not come is not there, unless a limit is passed. -/
theorem awaitFrom_error {buf : Bytes} {reads : List Bytes} {e : ε}
    (h : awaitFrom sc limit ended buf reads = .error e) :
    (∃ max, limit = some (max, e)) ∨
      sc.scan (buf ++ reads.flatten) = none ∧ overrun limit (buf ++ reads.flatten) = none ∧
        e = ended := by
  have hlimit : ∀ {buf : Bytes} {e : ε}, overrun limit buf = some e →
      ∃ max, limit = some (max, e) := by
    intro buf e hover
    obtain ⟨⟨max, e'⟩, hsome, hif⟩ := Option.bind_eq_some_iff.mp hover
    split at hif
    · cases hif
      exact ⟨max, hsome⟩
    · cases hif
  induction reads generalizing buf with
  | nil =>
    rw [awaitFrom] at h
    split at h
    · cases h
    · next hscan =>
      split at h
      · next e' hover =>
        cases h
        exact .inl (hlimit hover)
      · next hover =>
        cases h
        rw [List.flatten_nil, List.append_nil]
        exact .inr ⟨hscan, hover, rfl⟩
  | cons read reads ih =>
    rw [awaitFrom] at h
    split at h
    · cases h
    · split at h
      · next e' hover =>
        cases h
        exact .inl (hlimit hover)
      · have hrest := ih h
        rw [List.append_assoc] at hrest
        exact hrest

/-- What the whole source begins with comes, if less than it is within the limit. -/
theorem awaitFrom_of_scan {buf : Bytes} {reads : List Bytes} {a : α} {n : ℕ}
    (h : sc.scan (buf ++ reads.flatten) = some (a, n))
    (hlimit : ∀ max e, limit = some (max, e) → n ≤ max + 1) :
    ∃ s, awaitFrom sc limit ended buf reads = .ok (a, s) := by
  have hwithin : ∀ {buf : Bytes}, buf.length < n → overrun limit buf = none := by
    intro buf hshort
    rw [overrun, Option.bind_eq_none_iff]
    intro ⟨max, e⟩ hsome
    have hle := hlimit max e hsome
    exact if_neg (by omega)
  induction reads generalizing buf with
  | nil =>
    rw [List.flatten_nil, List.append_nil] at h
    rw [awaitFrom, h]
    exact ⟨_, rfl⟩
  | cons read reads ih =>
    by_cases hlength : n ≤ buf.length
    · rw [awaitFrom, sc.scan_long h (List.prefix_append _ _) hlength]
      exact ⟨_, rfl⟩
    · have hshort := Nat.lt_of_not_le hlength
      rw [awaitFrom, sc.scan_short h (List.prefix_append _ _) hshort, hwithin hshort]
      refine ih ?_
      rw [List.append_assoc]
      exact h

/-- Byte by byte nothing is read that is not used, and no limit is passed only if it could not be. -/
theorem awaitFrom_bytewise {buf rest : Bytes} {a : α} {t : Source}
    (hnone : ∀ k < buf.length, sc.scan (buf.take k) = none)
    (hover : ∀ max e, limit = some (max, e) → buf.length ≤ max + 1)
    (h : awaitFrom sc limit ended buf (rest.map fun b => [b]) = .ok (a, t)) :
    t = t.bytewise ∧ ∃ n, sc.scan (buf ++ rest) = some (a, n) ∧
      ∀ max e, limit = some (max, e) → n ≤ max + 1 := by
  -- what is found in the buffer takes all of it
  have hfound : ∀ {buf : Bytes} {a : α} {n : ℕ},
      (∀ k < buf.length, sc.scan (buf.take k) = none) → sc.scan buf = some (a, n) →
        n = buf.length := by
    intro buf a n hnone hscan
    by_contra hne
    have hlt : n < buf.length := lt_of_le_of_ne (sc.fits hscan) hne
    have hstill := sc.stable hscan []
    rw [List.append_nil, hnone n hlt] at hstill
    cases hstill
  induction rest generalizing buf with
  | nil =>
    rw [List.map_nil, awaitFrom] at h
    split at h
    · next a' n hscan =>
      cases h
      obtain rfl := hfound hnone hscan
      rw [List.drop_length, List.append_nil]
      exact ⟨rfl, buf.length, hscan, hover⟩
    · split at h <;> cases h
  | cons b rest ih =>
    rw [List.map_cons, awaitFrom] at h
    split at h
    · next a' n hscan =>
      cases h
      obtain rfl := hfound hnone hscan
      refine ⟨?_, buf.length, sc.scan_append hscan _, hover⟩
      rw [List.drop_length, Source.bytewise, Source.whole, List.nil_append, List.flatten_cons,
        Source.flatten_singletons]
      rfl
    · next hscan =>
      split at h
      · cases h
      · next hroom =>
        have hlength : (buf ++ [b]).length = buf.length + 1 := List.length_append
        have hnone' : ∀ k < (buf ++ [b]).length, sc.scan ((buf ++ [b]).take k) = none := by
          intro k hk
          rw [hlength] at hk
          rw [List.take_append_of_le_length (by omega)]
          by_cases heq : k = buf.length
          · rw [heq, List.take_length]
            exact hscan
          · exact hnone k (by omega)
        have hover' : ∀ max e, limit = some (max, e) → (buf ++ [b]).length ≤ max + 1 := by
          intro max e hsome
          rw [overrun, hsome, Option.bind_some] at hroom
          have hle : ¬ max < buf.length := fun hlt => by simp [hlt] at hroom
          rw [hlength]
          omega
        have hrest := ih hnone' hover' h
        rw [List.append_assoc, List.singleton_append] at hrest
        exact hrest

/-! ## Steady readers -/

/-- A result, with what is left of the source in one piece. -/
def gather (x : Except ε (α × Source)) : Except ε (α × Source) :=
  x.map fun r => (r.1, r.2.gathered)

structure Steady (limits : ε → Prop) (m : Reader ε α) : Prop where
  /-- The result is a limit, or that of the source in one piece. -/
  split : ∀ s : Source, (∃ e, limits e ∧ m s = .error e) ∨ gather (m s) = m s.gathered
  /-- What is taken byte by byte is taken in any pieces. -/
  slow : ∀ (s : Source) (a : α) (t : Source), m s.bytewise = .ok (a, t) →
    t = t.bytewise ∧ gather (m s) = .ok (a, t.gathered)

variable {limits : ε → Prop}

theorem Steady.pure (a : α) : Steady limits (pure a : Reader ε α) := by
  constructor
  · exact fun s => .inr rfl
  · intro s a' t h
    cases h
    refine ⟨Source.bytewise_of_whole s.whole_bytewise.symm, ?_⟩
    show Except.ok (a, s.gathered) = _
    rw [Source.gathered_inj.mpr s.whole_bytewise.symm]

theorem Steady.throw (e : ε) : Steady limits (throw e : Reader ε α) := by
  constructor
  · exact fun s => .inr rfl
  · intro s a t h
    cases h

theorem Steady.bind {m : Reader ε α} {f : α → Reader ε β} (hm : Steady limits m)
    (hf : ∀ a, Steady limits (f a)) : Steady limits (m >>= f) := by
  have hbind : ∀ s, (m >>= f) s = (m s).bind fun r => f r.1 r.2 := fun s => rfl
  constructor
  · intro s
    rw [hbind, hbind]
    rcases hm.split s with ⟨e, he, hs⟩ | hs
    · exact .inl ⟨e, he, by rw [hs]; rfl⟩
    · cases hms : m s with
      | error e =>
        rw [hms] at hs
        rw [← hs]
        exact .inr rfl
      | ok r =>
        rw [hms] at hs
        rw [← hs]
        exact (hf r.1).split r.2
  · intro s b t h
    rw [hbind] at h
    rw [hbind]
    cases hms : m s.bytewise with
    | error e =>
      rw [hms] at h
      cases h
    | ok r =>
      obtain ⟨a, t'⟩ := r
      rw [hms] at h
      obtain ⟨hslow, hgather⟩ := hm.slow s a t' hms
      cases hs : m s with
      | error e =>
        rw [hs] at hgather
        cases hgather
      | ok r =>
        obtain ⟨a', s'⟩ := r
        rw [hs] at hgather
        obtain ⟨rfl, hsame⟩ := Prod.mk.inj (Except.ok.inj hgather)
        have hbytes : s'.bytewise = t' := by
          rw [Source.bytewise_of_whole (Source.gathered_inj.mp hsame), ← hslow]
        refine (hf a').slow s' b t ?_
        rw [hbytes]
        exact h

theorem Steady.sized {f : ℕ → Reader ε α} (hf : ∀ n, Steady limits (f n)) :
    Steady limits (sized f) := by
  constructor
  · intro s
    show _ ∨ gather (f s.whole.length s) = f s.gathered.whole.length s.gathered
    rw [s.whole_gathered]
    exact (hf s.whole.length).split s
  · intro s a t h
    have hsame : f s.whole.length s.bytewise = .ok (a, t) := by
      rw [← s.whole_bytewise]
      exact h
    exact (hf s.whole.length).slow s a t hsame

variable {sc limit ended}

theorem steady_await (hlimit : ∀ max e, limit = some (max, e) → limits e) :
    Steady limits (await sc limit ended) := by
  have hgathered : ∀ s : Source, await sc limit ended s.gathered
      = awaitFrom sc limit ended s.whole [] := fun s => rfl
  constructor
  · intro s
    rw [hgathered]
    cases hs : await sc limit ended s with
    | error e =>
      rcases awaitFrom_error sc limit ended hs with ⟨max, hmax⟩ | ⟨hscan, hover, rfl⟩
      · exact .inl ⟨e, hlimit max e hmax, rfl⟩
      · right
        rw [awaitFrom, Source.whole, hscan, hover]
        rfl
    | ok r =>
      obtain ⟨a, s'⟩ := r
      obtain ⟨n, hscan, hwhole⟩ := awaitFrom_ok sc limit ended hs
      right
      rw [awaitFrom, Source.whole, hscan]
      show Except.ok (a, s'.gathered) = .ok (a, ⟨(s.buf ++ s.reads.flatten).drop n, []⟩)
      rw [← hwhole, Source.gathered]
  · intro s a t h
    have hempty : ∀ k < ([] : Bytes).length, sc.scan (([] : Bytes).take k) = none :=
      fun k hk => absurd hk (Nat.not_lt_zero k)
    have hbytes : awaitFrom sc limit ended [] (s.whole.map fun b => [b]) = .ok (a, t) := h
    obtain ⟨hslow, n, hscan, hwithin⟩ := awaitFrom_bytewise sc limit ended hempty
      (fun max e _ => Nat.zero_le _) hbytes
    rw [List.nil_append] at hscan
    obtain ⟨s', hs'⟩ := awaitFrom_of_scan sc limit ended hscan hwithin
    obtain ⟨m, hm, hwhole⟩ := awaitFrom_ok sc limit ended hs'
    obtain ⟨k, hk, hleft⟩ := awaitFrom_ok sc limit ended hbytes
    rw [List.nil_append, Source.flatten_singletons] at hk hleft
    -- both take the same of the source
    have hsame : m = k := (Prod.mk.inj (Option.some.inj (hm.symm.trans hk))).2
    have hs : await sc limit ended s = .ok (a, s') := hs'
    have hwhole' : s'.whole = t.whole := by
      rw [hwhole, hleft, hsame, Source.whole]
    refine ⟨hslow, ?_⟩
    rw [hs, ← Source.gathered_inj.mpr hwhole']
    rfl

/-! ## Scanners -/

/-- The next so many bytes. -/
def exactly (count : ℕ) : Scanner Bytes where
  scan bytes := if count ≤ bytes.length then some (bytes.take count, count) else none
  fits h := by
    split at h
    · next hle =>
      cases h
      exact hle
    · cases h
  stable {bytes _ _} h more := by
    split at h
    · next hle =>
      cases h
      have hlength : (bytes.take count).length = count := List.length_take_of_le hle
      have henough : count ≤ (bytes.take count ++ more).length := by
        rw [List.length_append]
        omega
      rw [if_pos henough, List.take_append_of_le_length hlength.ge, List.take_take, Nat.min_self]
    · cases h
  late h k hk := by
    split at h
    · cases h
      exact if_neg (by rw [List.length_take]; omega)
    · cases h

/-- Where the delimiter is first. -/
def position (delimiter : Bytes) : Bytes → Option ℕ
  | [] => if delimiter = [] then some 0 else none
  | b :: bytes =>
    if delimiter <+: b :: bytes then some 0 else (position delimiter bytes).map (· + 1)

theorem position_eq_some {delimiter bytes : Bytes} {i : ℕ} :
    position delimiter bytes = some i ↔
      i ≤ bytes.length ∧ delimiter <+: bytes.drop i ∧ ∀ j < i, ¬ delimiter <+: bytes.drop j := by
  induction bytes generalizing i with
  | nil =>
    rw [position]
    split
    · next hnil =>
      rw [hnil, Option.some_inj]
      constructor
      · rintro rfl
        exact ⟨le_rfl, List.nil_prefix, fun j hj => absurd hj (Nat.not_lt_zero j)⟩
      · rintro ⟨hle, -⟩
        exact (Nat.le_zero.mp hle).symm
    · next hne =>
      refine iff_of_false nofun ?_
      rintro ⟨-, hfront, -⟩
      rw [List.drop_nil] at hfront
      exact hne (List.prefix_nil.mp hfront)
  | cons b bytes ih =>
    rw [position]
    split
    · next hhere =>
      rw [Option.some_inj]
      constructor
      · rintro rfl
        exact ⟨Nat.zero_le _, hhere, fun j hj => absurd hj (Nat.not_lt_zero j)⟩
      · rintro ⟨-, -, hfirst⟩
        by_contra hne
        exact hfirst 0 (Nat.pos_of_ne_zero fun h => hne h.symm) hhere
    · next hhere =>
      rw [Option.map_eq_some_iff]
      constructor
      · rintro ⟨i, hi, rfl⟩
        obtain ⟨hle, hfront, hfirst⟩ := ih.mp hi
        refine ⟨Nat.succ_le_succ hle, hfront, fun j hj => ?_⟩
        cases j with
        | zero => exact hhere
        | succ j => exact hfirst j (Nat.lt_of_succ_lt_succ hj)
      · rintro ⟨hle, hfront, hfirst⟩
        cases i with
        | zero => exact absurd hfront hhere
        | succ i =>
          refine ⟨i, ih.mpr ⟨Nat.le_of_succ_le_succ hle, hfront, fun j hj => ?_⟩, rfl⟩
          exact hfirst (j + 1) (Nat.succ_lt_succ hj)

theorem position_eq_none {delimiter bytes : Bytes} :
    position delimiter bytes = none ↔ ∀ j ≤ bytes.length, ¬ delimiter <+: bytes.drop j := by
  constructor
  · intro h j hj hfront
    -- the first place at which it is
    have hex : ∃ j, j ≤ bytes.length ∧ delimiter <+: bytes.drop j := ⟨j, hj, hfront⟩
    classical
    have hsome : position delimiter bytes = some (Nat.find hex) := by
      obtain ⟨hle, hthere⟩ := Nat.find_spec hex
      refine position_eq_some.mpr ⟨hle, hthere, fun k hk hfront => ?_⟩
      exact Nat.find_min hex hk ⟨hk.le.trans hle, hfront⟩
    rw [h] at hsome
    cases hsome
  · intro h
    rw [Option.eq_none_iff_forall_ne_some]
    intro i hi
    obtain ⟨hle, hfront, -⟩ := position_eq_some.mp hi
    exact h i hle hfront

/-- What is before a delimiter, which is taken too. -/
def delimited (delimiter : Bytes) : Scanner Bytes where
  scan bytes := (position delimiter bytes).map fun i => (bytes.take i, i + delimiter.length)
  fits h := by
    obtain ⟨i, hi, heq⟩ := Option.map_eq_some_iff.mp h
    cases heq
    obtain ⟨hle, hfront, -⟩ := position_eq_some.mp hi
    have hlength := hfront.length_le
    rw [List.length_drop] at hlength
    omega
  stable {bytes a n} h more := by
    obtain ⟨i, hi, heq⟩ := Option.map_eq_some_iff.mp h
    cases heq
    obtain ⟨hle, hfront, hfirst⟩ := position_eq_some.mp hi
    have hlength := hfront.length_le
    rw [List.length_drop] at hlength
    have htake : (bytes.take (i + delimiter.length)).length = i + delimiter.length :=
      List.length_take_of_le (by omega)
    have hdrop : ∀ j ≤ i, (bytes.take (i + delimiter.length) ++ more).drop j
        = (bytes.drop j).take (i + delimiter.length - j) ++ more := by
      intro j hj
      rw [List.drop_append_of_le_length (by omega), List.drop_take]
    have hsame : position delimiter (bytes.take (i + delimiter.length) ++ more) = some i := by
      refine position_eq_some.mpr ⟨by rw [List.length_append]; omega, ?_, fun j hj hbefore => ?_⟩
      · rw [hdrop i le_rfl]
        refine List.IsPrefix.trans ?_ (List.prefix_append _ _)
        exact List.prefix_take_iff.mpr ⟨hfront, by omega⟩
      · rw [hdrop j hj.le] at hbefore
        have hshort : delimiter <+: (bytes.drop j).take (i + delimiter.length - j) := by
          refine List.prefix_of_prefix_length_le hbefore (List.prefix_append _ _) ?_
          rw [List.length_take, List.length_drop]
          omega
        exact hfirst j hj (List.prefix_take_iff.mp hshort).1
    rw [hsame, Option.map_some]
    congr 2
    rw [List.take_append_of_le_length (by omega), List.take_take, Nat.min_eq_left (by omega)]
  late {bytes a n} h k hk := by
    obtain ⟨i, hi, heq⟩ := Option.map_eq_some_iff.mp h
    cases heq
    obtain ⟨hle, hfront, hfirst⟩ := position_eq_some.mp hi
    rw [Option.map_eq_none_iff]
    refine position_eq_none.mpr fun j hj hthere => ?_
    rw [List.drop_take] at hthere
    obtain ⟨hthere, hlength⟩ := List.prefix_take_iff.mp hthere
    have hij : j < i := by
      rw [List.length_take] at hj
      omega
    exact hfirst j hij hthere

theorem delimited_eq_some {delimiter bytes found : Bytes} {n : ℕ} :
    (delimited delimiter).scan bytes = some (found, n) ↔
      ∃ rest, bytes = found ++ delimiter ++ rest ∧
        position delimiter (found ++ delimiter) = some found.length ∧
        n = (found ++ delimiter).length := by
  constructor
  · intro h
    have hstable := (delimited delimiter).stable h []
    obtain ⟨i, hi, heq⟩ := Option.map_eq_some_iff.mp h
    obtain ⟨rfl, rfl⟩ := Prod.mk.inj heq
    obtain ⟨hle, hfront, -⟩ := position_eq_some.mp hi
    obtain ⟨rest, hrest⟩ := hfront
    have hbytes : bytes = bytes.take i ++ delimiter ++ rest := by
      rw [List.append_assoc, hrest, List.take_append_drop]
    have hlength : (bytes.take i).length = i := List.length_take_of_le hle
    have htake : bytes.take (i + delimiter.length) = bytes.take i ++ delimiter := by
      rw [List.take_add, ← hrest, List.take_left]
    refine ⟨rest, hbytes, ?_, ?_⟩
    · rw [List.append_nil, htake] at hstable
      obtain ⟨j, hj, heq⟩ := Option.map_eq_some_iff.mp hstable
      have hij : j = i := Nat.add_right_cancel (Prod.mk.inj heq).2
      rw [hj, hij, hlength]
    · rw [List.length_append, hlength]
  · rintro ⟨rest, rfl, hposition, rfl⟩
    refine (delimited delimiter).scan_append ?_ rest
    show (position delimiter (found ++ delimiter)).map _ = _
    rw [hposition, Option.map_some, List.take_left, List.length_append]

theorem exactly_eq_some {count : ℕ} {bytes found : Bytes} {n : ℕ} :
    (exactly count).scan bytes = some (found, n) ↔
      ∃ rest, bytes = found ++ rest ∧ found.length = count ∧ n = count := by
  constructor
  · intro h
    have hscan : (if count ≤ bytes.length then some (bytes.take count, count) else none)
      = some (found, n) := h
    split at hscan
    · next hle =>
      cases hscan
      exact ⟨bytes.drop count, (List.take_append_drop _ _).symm, List.length_take_of_le hle, rfl⟩
    · cases hscan
  · rintro ⟨rest, rfl, rfl, rfl⟩
    show (if _ then _ else _) = _
    rw [if_pos (by rw [List.length_append]; omega), List.take_left]

/-- In one piece it is there or it is not. -/
theorem await_gathered {bytes : Bytes} {a : α} {t : Source} :
    await sc limit ended ⟨bytes, []⟩ = .ok (a, t) ↔
      ∃ n, sc.scan bytes = some (a, n) ∧ t = ⟨bytes.drop n, []⟩ := by
  rw [await, awaitFrom]
  cases hscan : sc.scan bytes with
  | none =>
    refine iff_of_false ?_ ?_
    · intro h
      simp only at h
      split at h <;> cases h
    · rintro ⟨n, hn, -⟩
      cases hn
  | some r =>
    obtain ⟨b, n⟩ := r
    constructor
    · intro h
      cases h
      exact ⟨n, rfl, rfl⟩
    · rintro ⟨m, hm, rfl⟩
      cases hm
      rfl

/-- What a reader that is bound to others takes, in one piece. -/
theorem bind_eq_ok {m : Reader ε α} {f : α → Reader ε β} {s t : Source} {b : β} :
    (m >>= f) s = .ok (b, t) ↔ ∃ a s', m s = .ok (a, s') ∧ f a s' = .ok (b, t) := by
  have hbind : (m >>= f) s = (m s).bind fun r => f r.1 r.2 := rfl
  rw [hbind]
  cases m s with
  | error e =>
    refine iff_of_false nofun ?_
    rintro ⟨a, s', h, -⟩
    cases h
  | ok r =>
    obtain ⟨a, s'⟩ := r
    constructor
    · exact fun h => ⟨a, s', rfl, h⟩
    · rintro ⟨a', s'', h, hf⟩
      cases h
      exact hf

/-- Two readers that are bound to the same one can differ only in what it does not return. -/
theorem bind_congr {m : Reader ε α} {f g : α → Reader ε β} {s : Source}
    (h : ∀ a s', m s = .ok (a, s') → f a s' = g a s') : (m >>= f) s = (m >>= g) s := by
  have hbind : ∀ f : α → Reader ε β, (m >>= f) s = (m s).bind fun r => f r.1 r.2 := fun f => rfl
  rw [hbind, hbind]
  cases hm : m s with
  | error e => rfl
  | ok r => exact h r.1 r.2 hm

/-- What is left of a source is no more than there was, and less if something was taken. -/
theorem await_length_le {s t : Source} {a : α} (h : await sc limit ended s = .ok (a, t)) :
    ∃ n, sc.scan s.whole = some (a, n) ∧ t.whole.length + n = s.whole.length := by
  obtain ⟨n, hscan, hwhole⟩ := awaitFrom_ok sc limit ended h
  have hfits := sc.fits hscan
  refine ⟨n, hscan, ?_⟩
  rw [hwhole, List.length_drop, Source.whole]
  omega

/-! ## What a steady reader makes of a source in other pieces -/

section

variable {m : Reader ε α} {s t : Source}

/-- What is taken is what is taken of the source in one piece. -/
theorem Steady.in_one_piece (hm : Steady limits m) {a : α} (h : m s = .ok (a, t)) :
    m s.gathered = .ok (a, t.gathered) := by
  rcases hm.split s with ⟨e, -, he⟩ | hs
  · rw [h] at he
    cases he
  · rw [← hs, h]
    rfl

/-- Two ways to cut a source make no difference, unless one of them passes a limit. -/
theorem Steady.same (hm : Steady limits m) (h : s.whole = t.whole) :
    gather (m s) = gather (m t) ∨ (∃ e, limits e ∧ m s = .error e) ∨
      ∃ e, limits e ∧ m t = .error e := by
  rcases hm.split s with hs | hs
  · exact .inr (.inl hs)
  · rcases hm.split t with ht | ht
    · exact .inr (.inr ht)
    · exact .inl (by rw [hs, ht, Source.gathered_inj.mpr h])

end

end Reads
