import LogLess.Model
import Mathlib.Data.List.Basic
import Mathlib.Tactic

/-!
# Provenance of a forwarded record

The first sender's id and the number of hops travel as two ordinary attributes, so a record
may come with anything in their place. `provenance` reads them strictly, `isLoop` refuses what
came back, went too far or does not parse, and `stampForSend` writes them anew.
-/

namespace LogLess.Peer

def attrOrigin : Text := "logless.origin".toList
def attrHops : Text := "logless.hops".toList

def maxHops : ℕ := 8

/-- A hop count: a `u32`, as an integer or as its digits. -/
def hopsOf : AttrValue → Option ℕ
  | .i64 n => if 0 ≤ n ∧ n.toNat < 2 ^ 32 then some n.toNat else none
  | .str s =>
    if s ≠ [] ∧ s.all Char.isDigit ∧ Nat.ofDigitChars 10 s 0 < 2 ^ 32 then
      some (Nat.ofDigitChars 10 s 0)
    else none
  | _ => none

/-- One turn of the loop of `provenance`. -/
def noteAttr (found : Option Text × Option ℕ) (a : Attr) : Option (Option Text × Option ℕ) :=
  if a.key = attrOrigin then
    match a.value with
    | .str value =>
      if value = [] ∨ found.1.isSome then none else some (some value, found.2)
    | _ => none
  else if a.key = attrHops then
    (hopsOf a.value).bind fun n => if found.2.isSome then none else some (found.1, some n)
  else some found

/-- Origin and hop count of a record. None if they were forged or mangled. -/
def provenance (r : LogRecord) : Option (Option Text × ℕ) :=
  (r.attributes.foldlM noteAttr (none, none)).map fun (origin, hops) => (origin, hops.getD 0)

def isLoop (r : LogRecord) (ownInstance : Text) : Bool :=
  match provenance r with
  | some (origin, hops) => origin == some ownInstance || maxHops ≤ hops
  | none => true

def isProvenance (a : Attr) : Bool := a.key == attrHops || a.key == attrOrigin

/-- The attributes that are pushed for sending. -/
def stampAttrs (origin : Text) (hops : ℕ) : List Attr :=
  [⟨attrOrigin, .str origin⟩, ⟨attrHops, .i64 hops⟩]

def stampForSend (r : LogRecord) (ownInstance : Text) : LogRecord :=
  let (origin, hops) :=
    match provenance r with
    | some (origin, hops) =>
      (origin.getD ownInstance, min (min (hops + 1) (2 ^ 32 - 1)) maxHops)
    | none => (ownInstance, maxHops)
  { r with
    attributes := r.attributes.filter (fun a => a.key != attrHops && a.key != attrOrigin)
      ++ stampAttrs origin hops }

/-! ## What the loop finds -/

theorem noteAttr_of_not {a : Attr} (h : isProvenance a = false)
    (found : Option Text × Option ℕ) : noteAttr found a = some found := by
  simp only [isProvenance, Bool.or_eq_false_iff, beq_eq_false_iff_ne] at h
  rw [noteAttr, if_neg h.2, if_neg h.1]

/-- Only the two attributes count. -/
theorem foldlM_noteAttr_filter (as : List Attr) (found : Option Text × Option ℕ) :
    (as.filter isProvenance).foldlM noteAttr found = as.foldlM noteAttr found := by
  induction as generalizing found with
  | nil => rfl
  | cons a as ih =>
    by_cases h : isProvenance a = true
    · rw [List.filter_cons_of_pos h, List.foldlM_cons, List.foldlM_cons]
      exact congrArg _ (funext fun f => ih f)
    · rw [List.filter_cons_of_neg h, List.foldlM_cons, noteAttr_of_not (by simpa using h), ih]
      rfl

theorem provenance_congr {r s : LogRecord}
    (h : r.attributes.filter isProvenance = s.attributes.filter isProvenance) :
    provenance r = provenance s := by
  rw [provenance, provenance, ← foldlM_noteAttr_filter, h, foldlM_noteAttr_filter]

/-- An origin that is found is not empty. -/
theorem noteAttr_origin_ne_nil {found found' : Option Text × Option ℕ} {a : Attr}
    (h : noteAttr found a = some found') (hfound : ∀ o ∈ found.1, o ≠ []) :
    ∀ o ∈ found'.1, o ≠ [] := by
  unfold noteAttr at h
  split at h
  · split at h
    · next value =>
      split at h
      · cases h
      · next hvalue =>
        obtain rfl := Option.some.inj h
        intro o ho
        obtain rfl := Option.some.inj ho
        exact fun hnil => hvalue (.inl hnil)
    · cases h
  · split at h
    · obtain ⟨n, -, h⟩ := Option.bind_eq_some_iff.mp h
      split at h
      · cases h
      · obtain rfl := Option.some.inj h
        exact hfound
    · obtain rfl := Option.some.inj h
      exact hfound

theorem foldlM_origin_ne_nil {as : List Attr} {found found' : Option Text × Option ℕ}
    (h : as.foldlM noteAttr found = some found') (hfound : ∀ o ∈ found.1, o ≠ []) :
    ∀ o ∈ found'.1, o ≠ [] := by
  induction as generalizing found with
  | nil =>
    obtain rfl := Option.some.inj h
    exact hfound
  | cons a as ih =>
    rw [List.foldlM_cons] at h
    obtain ⟨mid, hmid, hrest⟩ := Option.bind_eq_some_iff.mp h
    exact ih hrest (noteAttr_origin_ne_nil hmid hfound)

theorem origin_ne_nil {r : LogRecord} {o : Text} {h : ℕ}
    (hp : provenance r = some (some o, h)) : o ≠ [] := by
  obtain ⟨found, hfound, hout⟩ := Option.map_eq_some_iff.mp hp
  exact foldlM_origin_ne_nil hfound (by simp) o (by simpa using congrArg Prod.fst hout)

/-- A record with provenance has no float in place of it. -/
theorem noteAttr_ne_none_of_foldlM {as : List Attr} {found found' : Option Text × Option ℕ}
    (h : as.foldlM noteAttr found = some found') {a : Attr} (ha : a ∈ as) :
    ∃ mid, noteAttr mid a ≠ none := by
  induction as generalizing found with
  | nil => cases ha
  | cons b as ih =>
    rw [List.foldlM_cons] at h
    obtain ⟨mid, hmid, hrest⟩ := Option.bind_eq_some_iff.mp h
    rcases List.mem_cons.mp ha with rfl | ha
    · exact ⟨found, by rw [hmid]; simp⟩
    · exact ih hrest ha

theorem isProvenance_of_float {r : LogRecord} (hp : provenance r ≠ none) {a : Attr}
    (ha : a ∈ r.attributes) {bits : UInt64} (hv : a.value = .f64 bits) :
    isProvenance a = false := by
  obtain ⟨found, hfound⟩ : ∃ found, r.attributes.foldlM noteAttr (none, none) = some found := by
    rw [← Option.ne_none_iff_exists']
    intro hnone
    exact hp (by rw [provenance, hnone]; rfl)
  obtain ⟨mid, hmid⟩ := noteAttr_ne_none_of_foldlM hfound ha
  by_contra hprov
  simp only [isProvenance, Bool.not_eq_false, Bool.or_eq_true, beq_iff_eq] at hprov
  unfold noteAttr at hmid
  rcases hprov with hkey | hkey
  · rw [if_neg (by rw [hkey]; decide), if_pos hkey, hv] at hmid
    exact hmid rfl
  · rw [if_pos hkey, hv] at hmid
    exact hmid rfl

/-! ## What a stamped record says -/

theorem filter_isProvenance_stamped (as : List Attr) (origin : Text) (hops : ℕ) :
    (as.filter (fun a : Attr => a.key != attrHops && a.key != attrOrigin)
      ++ stampAttrs origin hops).filter isProvenance = stampAttrs origin hops := by
  have hrest : (as.filter (fun a => a.key != attrHops && a.key != attrOrigin)).filter isProvenance
      = [] := by
    rw [List.filter_filter, List.filter_eq_nil_iff]
    intro a _
    simp only [isProvenance, bne, Bool.and_eq_true, Bool.or_eq_true, beq_iff_eq, Bool.not_eq_true']
    rintro ⟨hkey, hhops, horigin⟩
    simp_all
  rw [List.filter_append, hrest]
  simp [isProvenance, stampAttrs]

theorem hopsOf_natCast {hops : ℕ} (h : hops < 2 ^ 32) : hopsOf (.i64 hops) = some hops := by
  rw [hopsOf, Int.toNat_natCast, if_pos ⟨Int.natCast_nonneg hops, h⟩]

theorem noteAttr_attrOrigin (origin : Text) :
    noteAttr (none, none) ⟨attrOrigin, .str origin⟩
      = if origin = [] then none else some (some origin, none) := by
  simp [noteAttr]

theorem noteAttr_attrHops (origin : Option Text) {hops : ℕ} (h : hops < 2 ^ 32) :
    noteAttr (origin, none) ⟨attrHops, .i64 hops⟩ = some (origin, some hops) := by
  have hkey : attrHops ≠ attrOrigin := by decide
  rw [noteAttr, if_neg hkey, if_pos rfl, hopsOf_natCast h, Option.bind_some]
  exact if_neg (by simp)

/-- The two attributes written for sending are read back, unless the sender has no id. -/
theorem foldlM_noteAttr_stamp (origin : Text) {hops : ℕ} (h : hops < 2 ^ 32) :
    (stampAttrs origin hops).foldlM noteAttr (none, none)
      = if origin = [] then none else some (some origin, some hops) := by
  have hhops : [(⟨attrHops, .i64 hops⟩ : Attr)].foldlM noteAttr (some origin, none)
      = some (some origin, some hops) := by
    rw [List.foldlM_cons, noteAttr_attrHops _ h]
    rfl
  rw [stampAttrs, List.foldlM_cons, noteAttr_attrOrigin]
  by_cases hnil : origin = []
  · rw [if_pos hnil, if_pos hnil]
    rfl
  · rw [if_neg hnil, if_neg hnil]
    exact hhops

theorem provenance_stampForSend (r : LogRecord) (own : Text) :
    provenance (stampForSend r own)
      = match provenance r with
        | some (origin, hops) =>
          if origin.getD own = [] then none
          else some (some (origin.getD own), min (min (hops + 1) (2 ^ 32 - 1)) maxHops)
        | none => if own = [] then none else some (some own, maxHops) := by
  have hstamp : ∀ (origin : Text) (hops : ℕ), hops ≤ maxHops →
      provenance { r with
        attributes := r.attributes.filter (fun a => a.key != attrHops && a.key != attrOrigin)
          ++ stampAttrs origin hops }
        = if origin = [] then none else some (some origin, hops) := by
    intro origin hops hle
    have hlt : hops < 2 ^ 32 := by
      have : maxHops = 8 := rfl
      omega
    rw [provenance, ← foldlM_noteAttr_filter, filter_isProvenance_stamped,
      foldlM_noteAttr_stamp origin hlt]
    split <;> rfl
  cases hp : provenance r with
  | none =>
    rw [stampForSend, hp]
    exact hstamp own maxHops le_rfl
  | some found =>
    rw [stampForSend, hp]
    exact hstamp _ _ (min_le_right _ _)

theorem not_isLoop_iff {r : LogRecord} {own : Text} :
    isLoop r own = false ↔
      ∃ origin hops, provenance r = some (origin, hops) ∧ origin ≠ some own ∧ hops < maxHops := by
  rw [isLoop]
  cases hp : provenance r with
  | none => simp
  | some found =>
    obtain ⟨origin, hops⟩ := found
    simp

/-- A record that is not a loop is sent with one more hop, and with the origin it has or else
its sender's. One that has no origin from a sender without an id is refused by all. -/
theorem provenance_sent {r : LogRecord} {own : Text} (h : isLoop r own = false) :
    ∃ origin hops, provenance r = some (origin, hops) ∧
      (provenance (stampForSend r own) = none ∨
        provenance (stampForSend r own) = some (some (origin.getD own), hops + 1)) := by
  obtain ⟨origin, hops, hp, -, hlt⟩ := not_isLoop_iff.mp h
  refine ⟨origin, hops, hp, ?_⟩
  have hmin : min (min (hops + 1) (2 ^ 32 - 1)) maxHops = hops + 1 := by
    have : maxHops = 8 := rfl
    omega
  rw [provenance_stampForSend, hp]
  simp only [hmin]
  split
  · exact .inl rfl
  · exact .inr rfl

end LogLess.Peer
