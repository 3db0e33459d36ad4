import LogLess.Lib.Runs
import LogLess.Sentry.Upstream

/-!
# What the rate limits remember

Headers and bare retry times arrive while the clock goes on. `recorded` keeps every limit with the
second it really ends at; the code keeps one second for each category, one for all of them, and the
last header with a second of its own.
-/

namespace LogLess.Sentry

open RateLimits (all expiry recordLimit recordCategories)

/-! ## What a header says -/

/-- The seconds of one limit, if it is one. -/
def limitSeconds (limit : Text) : Option ℕ :=
  (((Text.splitAt ':' (Text.trim limit))[0]?).bind fun seconds =>
    Float64.parse (Text.trim seconds)).map Float64.F64.ceilU64

/-- The text of the categories of one limit. -/
def categoriesText (limit : Text) : Text :=
  Text.trim (((Text.splitAt ':' (Text.trim limit))[1]?).getD [])

/-- The categories in a text of some. -/
def categoriesOf (text : Text) : List Text :=
  ((Text.splitAt ';' text).map Text.trim).filter fun category => !category.isEmpty

/-- The limits that one part of a header sets, each with the second it ends at. No category stands
for all of them. -/
def limitsOf (now : ℕ) (limit : Text) : List (Text × ℕ) :=
  match limitSeconds limit with
  | none => []
  | some seconds =>
    if (categoriesText limit).isEmpty then [(all, now + seconds)]
    else (categoriesOf (categoriesText limit)).map fun category => (category, now + seconds)

/-! ## The steps -/

structure LimitsWorld where
  limits : RateLimits
  clock : ℕ
  recorded : List (Text × ℕ)
deriving DecidableEq

def LimitsWorld.start : LimitsWorld := ⟨RateLimits.default, 0, []⟩

/-- Some seconds after the one before it. -/
inductive LimitsEvent where
  | record (after : ℕ) (header : Text)
  | retryAfter (after seconds : ℕ)
deriving DecidableEq

namespace LimitsWorld

def step (w : LimitsWorld) : LimitsEvent → LimitsWorld
  | .record after header =>
    let now := w.clock + after
    ⟨w.limits.record header now, now,
      (Text.splitAt ',' header).foldl (fun recorded limit => limitsOf now limit ++ recorded)
        w.recorded⟩
  | .retryAfter after seconds =>
    let now := w.clock + after
    ⟨w.limits.recordRetryAfter seconds now, now, (all, now + seconds) :: w.recorded⟩

/-- None of the limits outlasts a new one: it ends no later, or has ended. -/
def outlasted (limits : List (Text × ℕ)) (now ends : ℕ) : Bool :=
  limits.all fun limit => limit.2 ≤ max now ends

/-- The limits of a header end at a second of 64 bits, and one of all categories replaces none
that outlasts it. -/
def headerFine (now : ℕ) : List (Text × ℕ) → List Text → Bool
  | _, [] => true
  | recorded, limit :: rest =>
    (limitSeconds limit).all (fun seconds => now + seconds < 2 ^ 64 &&
        (!(categoriesText limit).isEmpty ||
          outlasted (recorded.filter fun old => old.1 = all) now (now + seconds))) &&
      headerFine now (limitsOf now limit ++ recorded) rest

def fine (w : LimitsWorld) : LimitsEvent → Bool
  | .record after header =>
    headerFine (w.clock + after) w.recorded (Text.splitAt ',' header)
  | .retryAfter after seconds =>
    let now := w.clock + after
    now + seconds < 2 ^ 64 && outlasted w.recorded now (now + seconds)

/-! ## The invariant -/

/-- From `now` on, a category is limited in the table if and only if a recorded limit has not
ended. -/
def Same (now : ℕ) (untilSecond recorded : List (Text × ℕ)) : Prop :=
  ∀ category t, now ≤ t →
    ((∃ ends, Assoc.get untilSecond category = some ends ∧ t < ends) ↔
      ∃ limit ∈ recorded, limit.1 = category ∧ t < limit.2)

structure Inv (w : LimitsWorld) : Prop where
  keys : (w.limits.untilSecond.map Prod.fst).Nodup
  same : Same w.clock w.limits.untilSecond w.recorded
  header : ∀ t, w.clock ≤ t →
    ((w.limits.clientHeader t).isSome = true ↔ ∃ limit ∈ w.recorded, t < limit.2)
  small : ∀ limit ∈ w.recorded, limit.2 < 2 ^ 64

/-! ### The table -/

section
variable {now ends : ℕ} {untilSecond recorded : List (Text × ℕ)}

theorem Same.mono {now' : ℕ} (h : Same now untilSecond recorded) (hle : now ≤ now') :
    Same now' untilSecond recorded :=
  fun category t ht => h category t (hle.trans ht)

/-- An entry is written that lasts as long as the one there was and a new limit. -/
theorem Same.insert (h : Same now untilSecond recorded) {category : Text} {value : ℕ}
    (hvalue : ∀ t, now ≤ t → (t < value ↔ t < ends ∨
      ∃ old, Assoc.get untilSecond category = some old ∧ t < old)) :
    Same now (Assoc.insert untilSecond category value) ((category, ends) :: recorded) := by
  intro name t ht
  rw [Assoc.get_insert]
  have hcons : (∃ limit ∈ (category, ends) :: recorded, limit.1 = name ∧ t < limit.2) ↔
      (category = name ∧ t < ends) ∨ ∃ limit ∈ recorded, limit.1 = name ∧ t < limit.2 := by
    rw [List.exists_mem_cons_iff]
  rw [hcons, ← h name t ht]
  by_cases hname : name = category
  · subst hname
    rw [if_pos rfl]
    constructor
    · intro hend
      obtain ⟨end', heq, hlt⟩ := hend
      obtain rfl := Option.some.inj heq
      rcases (hvalue t ht).mp hlt with hnew | hold
      · exact .inl ⟨rfl, hnew⟩
      · exact .inr hold
    · intro hend
      refine ⟨value, rfl, (hvalue t ht).mpr ?_⟩
      exact hend.imp And.right id
  · rw [if_neg hname]
    exact ⟨.inr, fun hend => hend.resolve_left fun hnew => hname hnew.1.symm⟩

/-- The longer of two limits of a category is kept. -/
theorem Same.insert_max (h : Same now untilSecond recorded) (category : Text) (ends : ℕ) :
    Same now (Assoc.insert untilSecond category
        (max ((Assoc.get untilSecond category).getD 0) ends)) ((category, ends) :: recorded) := by
  apply h.insert
  intro t _
  rw [lt_max_iff, or_comm]
  cases Assoc.get untilSecond category with
  | none => simp
  | some old => simp

/-- A limit of all categories replaces the one there was. -/
theorem Same.replace (h : Same now untilSecond recorded)
    (hout : outlasted (recorded.filter fun old => old.1 = all) now ends = true) :
    Same now (Assoc.insert untilSecond all ends) ((all, ends) :: recorded) := by
  apply h.insert
  intro t ht
  refine ⟨.inl, fun hlt => hlt.elim id fun hold => ?_⟩
  obtain ⟨limit, hmem, hall, hlt⟩ := (h all t ht).mp hold
  have hmem' : limit ∈ recorded.filter fun old => old.1 = all :=
    List.mem_filter.mpr ⟨hmem, decide_eq_true hall⟩
  have hle : limit.2 ≤ max now ends := of_decide_eq_true (List.all_eq_true.mp hout limit hmem')
  omega

theorem nodup_recordCategories (h : (untilSecond.map Prod.fst).Nodup) (text : Text) :
    ((recordCategories ends untilSecond text).map Prod.fst).Nodup := by
  rw [recordCategories]
  induction Text.splitAt ';' text generalizing untilSecond with
  | nil => exact h
  | cons category categories ih =>
    rw [List.foldl_cons]
    apply ih
    simp only
    split
    · exact h
    · exact Assoc.nodup_keys_insert h _ _

/-- The order in which limits were recorded does not matter. -/
theorem Same.of_mem_iff (h : Same now untilSecond recorded) {recorded' : List (Text × ℕ)}
    (hmem : ∀ limit, limit ∈ recorded ↔ limit ∈ recorded') : Same now untilSecond recorded' := by
  intro category t ht
  rw [h category t ht]
  simp only [hmem]

theorem Same.recordCategories (h : Same now untilSecond recorded) (ends : ℕ) (text : Text) :
    Same now (recordCategories ends untilSecond text)
      (((categoriesOf text).map fun category => (category, ends)) ++ recorded) := by
  rw [RateLimits.recordCategories, categoriesOf]
  induction Text.splitAt ';' text generalizing untilSecond recorded with
  | nil => exact h
  | cons category parts ih =>
    rw [List.foldl_cons, List.map_cons]
    by_cases hempty : (Text.trim category).isEmpty = true
    · rw [List.filter_cons_of_neg (by simpa using hempty)]
      simp only [if_pos hempty]
      exact ih h
    · rw [List.filter_cons_of_pos (by simpa using hempty)]
      simp only [if_neg hempty]
      apply (ih (h.insert_max (Text.trim category) ends)).of_mem_iff
      intro limit
      simp only [List.mem_append, List.mem_cons, List.map_cons, List.cons_append]
      tauto

/-! ### One limit and one header -/

theorem recordLimit_eq (now : ℕ) (untilSecond : List (Text × ℕ)) (limit : Text) :
    recordLimit now untilSecond limit
      = match limitSeconds limit with
        | none => untilSecond
        | some seconds =>
          if (categoriesText limit).isEmpty then Assoc.insert untilSecond all (expiry now seconds)
          else recordCategories (expiry now seconds) untilSecond (categoriesText limit) := by
  rw [recordLimit, limitSeconds]
  cases ((Text.splitAt ':' (Text.trim limit))[0]?).bind fun seconds =>
    Float64.parse (Text.trim seconds) <;> rfl

theorem expiry_of_lt {now seconds : ℕ} (h : now + seconds < 2 ^ 64) :
    expiry now seconds = now + seconds := Nat.mod_eq_of_lt h

theorem nodup_recordLimit (h : (untilSecond.map Prod.fst).Nodup) (limit : Text) :
    ((recordLimit now untilSecond limit).map Prod.fst).Nodup := by
  rw [recordLimit_eq]
  cases limitSeconds limit with
  | none => exact h
  | some seconds =>
    simp only
    split
    · exact Assoc.nodup_keys_insert h _ _
    · exact nodup_recordCategories h _

theorem headerFine_cons {limit : Text} {rest : List Text} :
    headerFine now recorded (limit :: rest) = true ↔
      (∀ seconds, limitSeconds limit = some seconds → now + seconds < 2 ^ 64 ∧
        ((categoriesText limit).isEmpty = true →
          outlasted (recorded.filter fun old => old.1 = all) now (now + seconds) = true)) ∧
        headerFine now (limitsOf now limit ++ recorded) rest = true := by
  rw [headerFine, Bool.and_eq_true]
  apply and_congr_left
  intro _
  cases limitSeconds limit with
  | none => simp
  | some seconds =>
    rw [Option.all_some, Bool.and_eq_true, Bool.or_eq_true, decide_eq_true_eq, Bool.not_eq_true']
    constructor
    · intro h seconds' heq
      obtain rfl := Option.some.inj heq
      exact ⟨h.1, fun hempty => h.2.resolve_left (by rw [hempty]; decide)⟩
    · intro h
      refine ⟨(h seconds rfl).1, ?_⟩
      cases hempty : (categoriesText limit).isEmpty with
      | false => exact .inl rfl
      | true => exact .inr ((h seconds rfl).2 hempty)

/-- One part of a header. -/
theorem Same.recordLimit (h : Same now untilSecond recorded) {limit : Text}
    (hfine : ∀ seconds, limitSeconds limit = some seconds → now + seconds < 2 ^ 64 ∧
      ((categoriesText limit).isEmpty = true →
        outlasted (recorded.filter fun old => old.1 = all) now (now + seconds) = true)) :
    Same now (recordLimit now untilSecond limit) (limitsOf now limit ++ recorded) := by
  rw [recordLimit_eq, limitsOf]
  cases hseconds : limitSeconds limit with
  | none => exact h
  | some seconds =>
    obtain ⟨hlt, hout⟩ := hfine seconds hseconds
    simp only [expiry_of_lt hlt]
    by_cases hempty : (categoriesText limit).isEmpty = true
    · rw [if_pos hempty, if_pos hempty]
      exact h.replace (hout hempty)
    · rw [if_neg hempty, if_neg hempty]
      exact h.recordCategories (now + seconds) (categoriesText limit)

theorem lt_of_mem_limitsOf {limit : Text}
    (hfine : ∀ seconds, limitSeconds limit = some seconds → now + seconds < 2 ^ 64)
    {entry : Text × ℕ} (hmem : entry ∈ limitsOf now limit) : entry.2 < 2 ^ 64 := by
  rw [limitsOf] at hmem
  cases hseconds : limitSeconds limit with
  | none =>
    rw [hseconds] at hmem
    cases hmem
  | some seconds =>
    rw [hseconds] at hmem
    have hends : entry.2 = now + seconds := by
      simp only at hmem
      split at hmem
      · rw [List.mem_singleton.mp hmem]
      · obtain ⟨category, -, rfl⟩ := List.mem_map.mp hmem
        rfl
    rw [hends]
    exact hfine seconds hseconds

/-- The loop over the parts of a header. -/
theorem header_kept {parts : List Text} (hkeys : (untilSecond.map Prod.fst).Nodup)
    (h : Same now untilSecond recorded) (hsmall : ∀ limit ∈ recorded, limit.2 < 2 ^ 64)
    (hfine : headerFine now recorded parts = true) :
    ((parts.foldl (RateLimits.recordLimit now) untilSecond).map Prod.fst).Nodup ∧
      Same now (parts.foldl (RateLimits.recordLimit now) untilSecond)
        (parts.foldl (fun recorded limit => limitsOf now limit ++ recorded) recorded) ∧
      ∀ limit ∈ parts.foldl (fun recorded limit => limitsOf now limit ++ recorded) recorded,
        limit.2 < 2 ^ 64 := by
  induction parts generalizing untilSecond recorded with
  | nil => exact ⟨hkeys, h, hsmall⟩
  | cons limit parts ih =>
    obtain ⟨hlimit, hrest⟩ := headerFine_cons.mp hfine
    rw [List.foldl_cons, List.foldl_cons]
    refine ih (nodup_recordLimit hkeys limit) (h.recordLimit hlimit) ?_ hrest
    intro entry hentry
    rcases List.mem_append.mp hentry with hnew | hold
    · exact lt_of_mem_limitsOf (fun seconds hseconds => (hlimit seconds hseconds).1) hnew
    · exact hsmall entry hold

/-! ### The header for clients -/

theorem lt_foldl_max {t a : ℕ} {l : List ℕ} : t < l.foldl max a ↔ t < a ∨ ∃ b ∈ l, t < b := by
  induction l generalizing a with
  | nil => simp
  | cons b l ih =>
    rw [List.foldl_cons, ih, lt_max_iff, or_assoc, List.exists_mem_cons_iff]

/-- The longest entry of the table ends with the last limit recorded. -/
theorem Same.longest (h : Same now untilSecond recorded)
    (hkeys : (untilSecond.map Prod.fst).Nodup) {t : ℕ} (ht : now ≤ t) :
    t < (untilSecond.map Prod.snd).foldl max 0 ↔ ∃ limit ∈ recorded, t < limit.2 := by
  rw [lt_foldl_max]
  constructor
  · intro hlt
    obtain ⟨ends, hends, hlt⟩ := hlt.resolve_left (Nat.not_lt_zero t)
    obtain ⟨entry, hentry, rfl⟩ := List.mem_map.mp hends
    have hget := (Assoc.get_eq_some_iff hkeys).mpr hentry
    obtain ⟨limit, hmem, -, hlimit⟩ := (h entry.1 t ht).mp ⟨entry.2, hget, hlt⟩
    exact ⟨limit, hmem, hlimit⟩
  · intro hex
    obtain ⟨limit, hmem, hlt⟩ := hex
    obtain ⟨ends, hget, hends⟩ := (h limit.1 t ht).mpr ⟨limit, hmem, rfl, hlt⟩
    exact .inr ⟨ends, List.mem_map_of_mem (Assoc.mem_of_get hget), hends⟩

theorem isSome_clientHeader (limits : RateLimits) (t : ℕ) :
    (limits.clientHeader t).isSome = true ↔ ∃ raw, limits.raw = some raw ∧ t < raw.2 := by
  rw [RateLimits.clientHeader]
  cases limits.raw with
  | none => simp
  | some raw =>
    obtain ⟨header, ends⟩ := raw
    by_cases hlt : t < ends <;> simp [hlt]

end

/-! ### The steps keep it -/

theorem Inv.start : Inv start where
  keys := List.nodup_nil
  same := by
    intro category t _
    simp [LimitsWorld.start, RateLimits.default]
  header := by
    intro t _
    simp [LimitsWorld.start, RateLimits.default, RateLimits.clientHeader]
  small := by
    intro limit hmem
    cases hmem

theorem Inv.record {w : LimitsWorld} (h : Inv w) {after : ℕ} {header : Text}
    (hfine : w.fine (.record after header) = true) : Inv (w.step (.record after header)) := by
  have hsame := h.same.mono (Nat.le_add_right w.clock after)
  obtain ⟨hkeys, hsame', hsmall⟩ := header_kept h.keys hsame h.small hfine
  refine ⟨hkeys, hsame', ?_, hsmall⟩
  intro t ht
  rw [isSome_clientHeader]
  refine Iff.trans ?_ (hsame'.longest hkeys ht)
  constructor
  · intro hraw
    obtain ⟨raw, heq, hlt⟩ := hraw
    obtain rfl := Option.some.inj heq
    exact hlt
  · intro hlt
    exact ⟨_, rfl, hlt⟩

theorem Inv.retryAfter {w : LimitsWorld} (h : Inv w) {after seconds : ℕ}
    (hfine : w.fine (.retryAfter after seconds) = true) :
    Inv (w.step (.retryAfter after seconds)) := by
  rw [fine, Bool.and_eq_true, decide_eq_true_eq] at hfine
  obtain ⟨hlt, hout⟩ := hfine
  have hle : ∀ limit ∈ w.recorded, limit.2 ≤ max (w.clock + after) (w.clock + after + seconds) :=
    fun limit hmem => of_decide_eq_true (List.all_eq_true.mp hout limit hmem)
  have hall : outlasted (w.recorded.filter fun old => old.1 = all) (w.clock + after)
      (w.clock + after + seconds) = true := by
    rw [outlasted, List.all_eq_true]
    intro limit hmem
    exact decide_eq_true (hle limit (List.mem_of_mem_filter hmem))
  have hsame := (h.same.mono (Nat.le_add_right w.clock after)).replace hall
  rw [step, RateLimits.recordRetryAfter, expiry_of_lt hlt]
  refine ⟨Assoc.nodup_keys_insert h.keys _ _, hsame, ?_, ?_⟩
  · intro t ht
    rw [isSome_clientHeader, List.exists_mem_cons_iff]
    constructor
    · intro hraw
      obtain ⟨raw, heq, hend⟩ := hraw
      obtain rfl := Option.some.inj heq
      exact .inl hend
    · intro hex
      refine ⟨_, rfl, hex.elim id fun hold => ?_⟩
      obtain ⟨limit, hmem, hend⟩ := hold
      have hlimit := hle limit hmem
      have ht' : w.clock + after ≤ t := ht
      show t < w.clock + after + seconds
      omega
  · intro limit hmem
    rcases List.mem_cons.mp hmem with rfl | hmem
    · exact hlt
    · exact h.small limit hmem

theorem Inv.step {w : LimitsWorld} (h : Inv w) {e : LimitsEvent} (hfine : w.fine e = true) :
    Inv (w.step e) := by
  cases e with
  | record after header => exact h.record hfine
  | retryAfter after seconds => exact h.retryAfter hfine

theorem Inv.isLimited {w : LimitsWorld} (h : Inv w) (itemType : ItemType) {t : ℕ}
    (ht : w.clock ≤ t) : w.limits.isLimited itemType t = true ↔
      ∃ limit ∈ w.recorded,
        (limit.1 = itemType.rateLimitCategory ∨ limit.1 = all) ∧ t < limit.2 := by
  have hany : ∀ category, (Assoc.get w.limits.untilSecond category).any (t < ·) = true ↔
      ∃ limit ∈ w.recorded, limit.1 = category ∧ t < limit.2 := by
    intro category
    rw [← h.same category t ht]
    cases Assoc.get w.limits.untilSecond category <;> simp
  rw [RateLimits.isLimited, Bool.or_eq_true, hany, hany]
  constructor
  · intro hex
    rcases hex with hex | hex
    · obtain ⟨limit, hmem, hall, hlt⟩ := hex
      exact ⟨limit, hmem, .inr hall, hlt⟩
    · obtain ⟨limit, hmem, hcategory, hlt⟩ := hex
      exact ⟨limit, hmem, .inl hcategory, hlt⟩
  · intro hex
    obtain ⟨limit, hmem, hcovers, hlt⟩ := hex
    rcases hcovers with hcategory | hall
    · exact .inr ⟨limit, hmem, hcategory, hlt⟩
    · exact .inl ⟨limit, hmem, hall, hlt⟩

/-- **Rate limits are kept exactly** as long as no limit of all categories replaces one that
outlasts it, no retry time comes while a limit outlasts it, and no limit ends beyond 64 bits. -/
theorem limits_exact {events : List LimitsEvent}
    (h : Runs.Meets step (fun w e => w.fine e = true) start events) :
    let w := Runs.run step start events
    (∀ itemType t, w.clock ≤ t → (w.limits.isLimited itemType t = true ↔
      ∃ limit ∈ w.recorded,
        (limit.1 = itemType.rateLimitCategory ∨ limit.1 = all) ∧ t < limit.2)) ∧
    (∀ t, w.clock ≤ t → ((w.limits.clientHeader t).isSome = true ↔
      ∃ limit ∈ w.recorded, t < limit.2)) ∧
    ∀ limit ∈ w.recorded, limit.2 < 2 ^ 64 := by
  have hinv : Inv (Runs.run step start events) :=
    Runs.Meets.invariant (fun w e hw he => hw.step he) h Inv.start
  exact ⟨fun itemType t ht => hinv.isLimited itemType ht, hinv.header, hinv.small⟩

/-- A limit of errors, one of transactions and sessions a second later, and a retry time that is
longer than both. -/
def keptEvents : List LimitsEvent :=
  [.record 1000 "60:error:organization".toList, .record 1 "5:transaction;session:key".toList,
    .retryAfter 1 600]

theorem limits_exact_kept :
    let w := Runs.run step start keptEvents
    (∀ itemType t, w.clock ≤ t → (w.limits.isLimited itemType t = true ↔
      ∃ limit ∈ w.recorded,
        (limit.1 = itemType.rateLimitCategory ∨ limit.1 = all) ∧ t < limit.2)) ∧
    (∀ t, w.clock ≤ t → ((w.limits.clientHeader t).isSome = true ↔
      ∃ limit ∈ w.recorded, t < limit.2)) ∧
    ∀ limit ∈ w.recorded, limit.2 < 2 ^ 64 := by
  have h : Runs.Meets step (fun w e => w.fine e = true) start keptEvents := by decide +kernel
  exact limits_exact h

/-- A shorter limit of all categories cancels a longer one, a retry time makes the header forget a
longer limit of errors, and a limit that a remote side made long enough ends at once. -/
theorem limits_lost :
    (let w := Runs.run step start
      [.record 1000 "600::organization".toList, .record 1 "10::organization".toList]
    (all, 1600) ∈ w.recorded ∧ w.clock ≤ 1100 ∧ w.limits.isLimited .event 1100 = false) ∧
    (let w := Runs.run step start [.record 1000 "600:error".toList, .retryAfter 1 10]
    ("error".toList, 1600) ∈ w.recorded ∧ w.clock ≤ 1100 ∧ w.limits.clientHeader 1100 = none) ∧
    (let w := Runs.run step start [.record 1000 "1e30:error".toList]
    ("error".toList, 1000 + (2 ^ 64 - 1)) ∈ w.recorded ∧ w.clock ≤ 1000 ∧
      w.limits.isLimited .event 1000 = false) := by
  decide +kernel

end LimitsWorld

end LogLess.Sentry
