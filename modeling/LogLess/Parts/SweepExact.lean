import LogLess.Lib.Runs
import LogLess.Parts.Sweep

/-!
# What a sweep deletes

Runs of uploads, commits, retires and sweeps. A part that a sweep deletes was committed with data
older than its tier's retention, the request sweeps only when it says so, and a dry run lists what
the sweep acts on. The signed comparison takes a time from 2^63 on for an old one, and a request
without a body is taken for one that says so.
-/

namespace LogLess.Parts

open Store (toI64)
open LocalStore (exampleName)

inductive CentralEvent where
  /-- A part becomes stored. -/
  | upload (place : Place) (size : ℕ)
  | commit (node : Text) (part : CommittedPart) (nowMs : ℕ) (writes : Bool)
  | retire (node name : Text) (claimed : Option Text) (nowMs : ℕ) (writes : Bool)
  | sweep (w : Weather) (nowMs : ℕ) (dryRun : Bool)
  /-- `POST /admin/v1/parts/sweep`. -/
  | post (w : Weather) (body : List UInt8) (clock : ℕ)

namespace Central

def fresh (config : SweepConfig) : Central := ⟨config, [], [], [], []⟩

def step (s : Central) : CentralEvent → Central
  | .upload place size => { s with objects := Assoc.insert s.objects place size }
  | .commit node part nowMs writes => (s.commit node part nowMs writes).1
  | .retire node name claimed nowMs writes => (s.retire node name claimed nowMs writes).1
  | .sweep w nowMs dryRun => (s.sweep w nowMs dryRun).1
  | .post w body clock => (s.partsSweep w body clock).1

/-! ## What is promised -/

/-- The part was stored or catalogued, and is not any more. -/
def Removes (s s' : Central) (place : Place) : Prop :=
  (place ∈ s.objects.map Prod.fst ∧ place ∉ s'.objects.map Prod.fst) ∨
    (place ∈ s.rows.map PartRow.place ∧ place ∉ s'.rows.map PartRow.place)

/-- The part is catalogued in a tier with a retention, and the newest data it was committed with is
before now minus the retention. -/
def Expired (s : Central) (place : Place) (nowMs : ℕ) : Prop :=
  ∃ row ∈ s.rows, row.place = place ∧ s.config.retention row.tier ≠ 0 ∧
    ∃ max, Assoc.get s.committed place = some max ∧
      max + s.config.retention row.tier * 10 ^ 9 < nowMs * 10 ^ 6

/-- The body gives the value false for `dry_run`. -/
def SaysFalse (body : List UInt8) : Prop :=
  ∃ v, (Utf8.strict body).bind Json.parse = some v ∧
    (v = .obj [("dry_run".toList, .bool false)] ∨ v = .arr [.bool false])

/-- A dry run at the same clock lists the parts that the sweep acts on. -/
def Forecast (s : Central) (w : Weather) (nowMs : ℕ) : Prop :=
  (∀ report, (s.sweep w nowMs false).2 = some report →
      ∃ forecast, (s.sweep w nowMs true).2 = some forecast ∧ forecast.parts = report.parts) ∧
    ∀ forecast, (s.sweep w nowMs true).2 = some forecast →
      ∀ place, s.Removes (s.sweep w nowMs false).1 place → place ∈ forecast.parts.map PartRow.place

def Exact (s : Central) : CentralEvent → Prop
  | .sweep w nowMs dryRun =>
    (∀ place, s.Removes (s.sweep w nowMs dryRun).1 place → s.Expired place nowMs) ∧
      (dryRun = true → (s.sweep w nowMs dryRun).1 = s) ∧ s.Forecast w nowMs
  | .post w body clock =>
    (∀ place, s.Removes (s.partsSweep w body clock).1 place →
        s.Expired place (satMul clock 1000)) ∧
      ((s.partsSweep w body clock).1 ≠ s → SaysFalse body)
  | _ => True

/-- No part of a tier with a retention was committed with a time from 2^63 on, unless what a sweep
compares with is as late. -/
def Signed (s : Central) (nowMs : ℕ) : Prop :=
  ∀ row ∈ s.rows, s.config.retention row.tier ≠ 0 →
    ∀ max, Assoc.get s.committed row.place = some max → 2 ^ 63 ≤ max →
      2 ^ 63 ≤ cutoffNano nowMs (s.config.retention row.tier)

/-- Times are `u64`, those compared by a sweep have the order of the signed ones, and a request
whose body is blank finds nothing due. -/
def Fine (s : Central) : CentralEvent → Prop
  | .commit _ part _ _ => part.maxUnixNano < 2 ^ 64
  | .sweep _ nowMs _ => nowMs < 2 ^ 64 ∧ s.Signed nowMs
  | .post _ body clock =>
    (requestDryRun body = some false → s.Signed (satMul clock 1000)) ∧
      (body.all isAsciiWhitespace = true → ∀ tier, s.due tier (satMul clock 1000) = [])
  | _ => True

/-- Every row is the only one of its part and has the time the part was committed with. -/
structure Inv (s : Central) : Prop where
  places : (s.rows.map PartRow.place).Nodup
  committed : ∀ row ∈ s.rows, ∃ max, Assoc.get s.committed row.place = some max ∧
    max < 2 ^ 64 ∧ row.maxObserved = toI64 max

variable {s s' : Central} {w : Weather} {nowMs : ℕ}

/-! ## Times -/

theorem cutoffNano_lt (nowMs secs : ℕ) : cutoffNano nowMs secs < 2 ^ 64 := by
  rw [cutoffNano, satMul]
  omega

/-- What is before the cutoff is before now minus the retention. -/
theorem add_lt_of_lt_cutoff {max secs : ℕ} (hnow : nowMs < 2 ^ 64)
    (h : max < cutoffNano nowMs secs) : max + secs * 10 ^ 9 < nowMs * 10 ^ 6 := by
  simp only [cutoffNano, satMul] at h
  omega

/-- The signed comparison, for times that are not on both sides of 2^63. -/
theorem lt_of_toI64_lt {max cutoff : ℕ} (hmax : max < 2 ^ 64) (hcutoff : cutoff < 2 ^ 64)
    (hsigned : 2 ^ 63 ≤ max → 2 ^ 63 ≤ cutoff) (h : toI64 max < toI64 cutoff) : max < cutoff := by
  unfold toI64 at h
  split at h <;> split at h <;> omega

/-! ## What a sweep acts on -/

theorem mem_due {tier : Tier} {part : PartRow} (h : part ∈ s.due tier nowMs) :
    part ∈ s.rows ∧ part.tier = tier ∧ s.config.retention tier ≠ 0 ∧
      part.maxObserved < toI64 (cutoffNano nowMs (s.config.retention tier)) := by
  unfold due at h
  split at h
  · cases h
  · next hsecs =>
    have hlisted := (List.mem_insertionSort _).mp (List.mem_of_mem_take h)
    rw [List.mem_filter, Bool.and_eq_true, beq_iff_eq, decide_eq_true_eq] at hlisted
    exact ⟨hlisted.1, hlisted.2.1, hsecs, hlisted.2.2⟩

theorem expired_of_mem_due (hs : s.Inv) (hnow : nowMs < 2 ^ 64) (hsigned : s.Signed nowMs)
    {tier : Tier} {part : PartRow} (h : part ∈ s.due tier nowMs) : s.Expired part.place nowMs := by
  obtain ⟨hrow, rfl, hsecs, hlt⟩ := mem_due h
  obtain ⟨max, hget, hmax, hobserved⟩ := hs.committed part hrow
  rw [hobserved] at hlt
  have hbefore : max < cutoffNano nowMs (s.config.retention part.tier) :=
    lt_of_toI64_lt hmax (cutoffNano_lt _ _) (hsigned part hrow hsecs max hget) hlt
  exact ⟨part, hrow, rfl, hsecs, max, hget, add_lt_of_lt_cutoff hnow hbefore⟩

/-- From `s` to `s'` only these parts may have gone. -/
structure Within (s s' : Central) (places : List Place) : Prop where
  config : s'.config = s.config
  committed : s'.committed = s.committed
  rows : ∃ keep : PartRow → Bool, s'.rows = s.rows.filter keep ∧
    ∀ r, keep r = false → r.place ∈ places
  objects : ∀ place ∈ s.objects.map Prod.fst, place ∉ places → place ∈ s'.objects.map Prod.fst

theorem Within.refl (s : Central) (places : List Place) : s.Within s places where
  config := rfl
  committed := rfl
  rows := ⟨fun _ => true, (List.filter_true _).symm, by simp⟩
  objects _ h _ := h

theorem Within.trans {s₁ s₂ s₃ : Central} {a b : List Place} (h : s₁.Within s₂ a)
    (h' : s₂.Within s₃ b) : s₁.Within s₃ (a ++ b) := by
  obtain ⟨keep, hkeep, hgone⟩ := h.rows
  obtain ⟨keep', hkeep', hgone'⟩ := h'.rows
  refine ⟨h'.config.trans h.config, h'.committed.trans h.committed,
    ⟨fun r => keep r && keep' r, ?_, ?_⟩, ?_⟩
  · rw [hkeep', hkeep, List.filter_filter]
    apply List.filter_congr
    intro r _
    rw [Bool.and_comm]
  · intro r hr
    rw [Bool.and_eq_false_iff] at hr
    rcases hr with hr | hr
    · exact List.mem_append_left _ (hgone r hr)
    · exact List.mem_append_right _ (hgone' r hr)
  · intro place hplace hnot
    rw [List.mem_append, not_or] at hnot
    exact h'.objects place (h.objects place hplace hnot.1) hnot.2

theorem Within.mem_of_removes {places : List Place} (h : s.Within s' places) {place : Place}
    (hremoves : s.Removes s' place) : place ∈ places := by
  obtain ⟨keep, hkeep, hgone⟩ := h.rows
  rcases hremoves with ⟨hin, hout⟩ | ⟨hin, hout⟩
  · by_contra hnot
    exact hout (h.objects place hin hnot)
  · obtain ⟨r, hr, rfl⟩ := List.mem_map.mp hin
    apply hgone
    by_contra hkept
    rw [Bool.not_eq_false] at hkept
    apply hout
    rw [hkeep]
    exact List.mem_map_of_mem (List.mem_filter.mpr ⟨hr, hkept⟩)

theorem Within.inv {places : List Place} (h : s.Within s' places) (hs : s.Inv) : s'.Inv := by
  obtain ⟨keep, hkeep, -⟩ := h.rows
  constructor
  · rw [hkeep]
    exact hs.places.sublist (List.filter_sublist.map _)
  · intro row hrow
    rw [hkeep] at hrow
    rw [h.committed]
    exact hs.committed row (List.mem_filter.mp hrow).1

/-! ## The sweep -/

theorem within_deleteObject (s : Central) (place : Place) :
    s.Within (s.deleteObject w place).1 [place] := by
  have hobjects : ∀ x ∈ s.objects.map Prod.fst, x ∉ [place] →
      x ∈ (Assoc.erase s.objects place).map Prod.fst := by
    intro x hx hne
    rw [Assoc.keys_erase]
    exact List.mem_filter.mpr
      ⟨hx, decide_eq_true fun heq => hne (List.mem_singleton.mpr heq)⟩
  have hrows : ∃ keep : PartRow → Bool, s.rows = s.rows.filter keep ∧
      ∀ r, keep r = false → r.place ∈ [place] :=
    ⟨fun _ => true, (List.filter_true _).symm, by simp⟩
  unfold deleteObject
  split
  · exact Within.refl s _
  · split
    · exact ⟨rfl, rfl, hrows, hobjects⟩
    · exact ⟨rfl, rfl, hrows, hobjects⟩
    · exact Within.refl s _

theorem within_finishExpiry (s : Central) (part : PartRow) (atMs : ℕ) (text : Text)
    (deleted : Bool) : s.Within (s.finishExpiry part atMs text deleted) [part.place] := by
  refine ⟨rfl, rfl, ?_, fun _ h _ => h⟩
  cases deleted with
  | false => exact ⟨fun _ => true, (List.filter_true _).symm, by simp⟩
  | true =>
    refine ⟨fun r => r.place != part.place, rfl, ?_⟩
    intro r hr
    rw [bne_eq_false_iff_eq] at hr
    exact List.mem_singleton.mpr hr

theorem Within.mono {a b : List Place} (h : s.Within s' a) (hsub : a ⊆ b) : s.Within s' b := by
  obtain ⟨keep, hkeep, hgone⟩ := h.rows
  exact ⟨h.config, h.committed, ⟨keep, hkeep, fun r hr => hsub (hgone r hr)⟩,
    fun place hplace hnot => h.objects place hplace fun hmem => hnot (hsub hmem)⟩

theorem expire_spec (s : Central) (report : SweepReport) (part : PartRow) :
    s.Within (expire w nowMs s report part).1 [part.place] ∧
      ∀ report', (expire w nowMs s report part).2 = some report' →
        report'.parts = report.parts ++ [part] := by
  have hdelete := @within_deleteObject w s part.place
  have htwice : ∀ {t : Central}, (s.deleteObject w part.place).1.Within t [part.place] →
      s.Within t [part.place] := by
    intro t ht
    exact (hdelete.trans ht).mono (by simp)
  unfold expire
  simp only
  split
  · refine ⟨hdelete, ?_⟩
    rintro _ ⟨⟩
  · split
    · refine ⟨htwice (within_finishExpiry _ _ _ _ _), ?_⟩
      rintro _ ⟨⟩
      rfl
    · refine ⟨htwice (within_finishExpiry _ _ _ _ _), ?_⟩
      rintro _ ⟨⟩
      rfl

theorem expireAll_spec (s : Central) (report : SweepReport) (parts : List PartRow) :
    s.Within (expireAll w nowMs s report parts).1 (parts.map PartRow.place) ∧
      ∀ report', (expireAll w nowMs s report parts).2 = some report' →
        report'.parts = report.parts ++ parts := by
  induction parts generalizing s report with
  | nil =>
    refine ⟨Within.refl s _, ?_⟩
    rintro _ ⟨⟩
    exact (List.append_nil _).symm
  | cons part rest ih =>
    obtain ⟨hwithin, hparts⟩ := @expire_spec w nowMs s report part
    rw [expireAll]
    rcases hr : expire w nowMs s report part with ⟨s₁, _ | report₁⟩
    · rw [hr] at hwithin
      refine ⟨hwithin.mono (by simp), ?_⟩
      rintro _ ⟨⟩
    · rw [hr] at hwithin hparts
      obtain ⟨hrest, hrest'⟩ := ih s₁ report₁
      refine ⟨hwithin.trans hrest, ?_⟩
      intro report' h
      rw [hrest' report' h, hparts report₁ rfl, List.append_assoc]
      rfl

/-- The catalog can be read for every tier that is swept. -/
def Lists (s : Central) (w : Weather) (tier : Tier) : Prop :=
  s.config.retention tier = 0 ∨ w.lists tier = true

/-- One tier: the sweep acts on what is due, and a dry run lists it. -/
theorem sweepTier_spec (s : Central) (report : SweepReport) (tier : Tier) (dryRun : Bool) :
    s.Within (s.sweepTier w nowMs dryRun report tier).1
        (if dryRun then [] else (s.due tier nowMs).map PartRow.place) ∧
      (∀ report', (s.sweepTier w nowMs dryRun report tier).2 = some report' →
        s.Lists w tier ∧ report'.parts = report.parts ++ s.due tier nowMs) ∧
      (s.Lists w tier → dryRun = true → (s.sweepTier w nowMs dryRun report tier).2 ≠ none) ∧
      (dryRun = true ∨ s.due tier nowMs = [] → (s.sweepTier w nowMs dryRun report tier).1 = s) := by
  unfold sweepTier
  by_cases hsecs : s.config.retention tier = 0
  · have hdue : s.due tier nowMs = [] := if_pos hsecs
    rw [if_pos hsecs, hdue]
    refine ⟨Within.refl s _, ?_, by simp, by simp⟩
    rintro _ ⟨⟩
    exact ⟨.inl hsecs, (List.append_nil _).symm⟩
  · rw [if_neg hsecs]
    by_cases hlists : w.lists tier = true
    · have hbatch : ((s.listDue tier (cutoffNano nowMs (s.config.retention tier))).take
          (sweepBatch + 1)).take sweepBatch = s.due tier nowMs := by
        rw [due, if_neg hsecs, List.take_take, min_eq_left (Nat.le_succ _)]
      simp only [hlists, Bool.not_true, Bool.false_eq_true, if_false, hbatch]
      cases dryRun with
      | true =>
        refine ⟨Within.refl s _, ?_, by simp, by simp⟩
        rintro _ ⟨⟩
        exact ⟨.inr hlists, rfl⟩
      | false =>
        simp only [Bool.false_eq_true, if_false]
        obtain ⟨hwithin, hparts⟩ := @expireAll_spec w nowMs s
          { report with truncated := report.truncated || sweepBatch < _ } (s.due tier nowMs)
        refine ⟨hwithin, fun report' h => ⟨.inr hlists, hparts report' h⟩, by simp, ?_⟩
        rintro (h | h)
        · cases h
        · rw [h]
          rfl
    · rw [Bool.not_eq_true] at hlists
      have hnot : ¬ s.Lists w tier := by
        rintro (h | h)
        · exact hsecs h
        · rw [hlists] at h
          cases h
      simp only [hlists, Bool.not_false, if_true]
      refine ⟨Within.refl s _, ?_, fun h => absurd h hnot, fun _ => trivial⟩
      rintro _ ⟨⟩

/-- Deleting warm parts does not change which cold ones are due. -/
theorem due_of_within (hs : s.Inv) {tier tier' : Tier} (hne : tier ≠ tier')
    (h : s.Within s' ((s.due tier nowMs).map PartRow.place)) :
    s'.due tier' nowMs = s.due tier' nowMs := by
  obtain ⟨keep, hkeep, hgone⟩ := h.rows
  have hlist : ∀ cutoff, s'.listDue tier' cutoff = s.listDue tier' cutoff := by
    intro cutoff
    rw [listDue, listDue, hkeep, List.filter_filter]
    congr 1
    apply List.filter_congr
    intro r hr
    by_cases htier : r.tier = tier'
    · have hkept : keep r = true := by
        by_contra hout
        rw [Bool.not_eq_true] at hout
        obtain ⟨part, hpart, hplace⟩ := List.mem_map.mp (hgone r hout)
        obtain ⟨hrow, htier', -, -⟩ := mem_due hpart
        obtain rfl : part = r := List.inj_on_of_nodup_map hs.places hrow hr hplace
        exact hne (htier'.symm.trans htier)
      rw [hkept, Bool.and_true]
    · have hother : (r.tier == tier') = false := beq_eq_false_iff_ne.mpr htier
      rw [hother, Bool.false_and, Bool.false_and]
  rw [due, due, h.config, hlist]

/-- What a sweep acts on, tier after tier. -/
def plan (s : Central) (nowMs : ℕ) : List PartRow := s.due .warm nowMs ++ s.due .cold nowMs

theorem sweep_spec (hs : s.Inv) (w : Weather) (nowMs : ℕ) (dryRun : Bool) :
    s.Within (s.sweep w nowMs dryRun).1
        (if dryRun then [] else (s.plan nowMs).map PartRow.place) ∧
      (∀ report, (s.sweep w nowMs dryRun).2 = some report →
        (∀ tier, s.Lists w tier) ∧ report.parts = s.plan nowMs) ∧
      ((∀ tier, s.Lists w tier) → dryRun = true → (s.sweep w nowMs dryRun).2 ≠ none) ∧
      (dryRun = true ∨ s.plan nowMs = [] → (s.sweep w nowMs dryRun).1 = s) := by
  obtain ⟨hwarm, hwarm', hlist, hsame⟩ :=
    @sweepTier_spec w nowMs s ⟨dryRun, 0, 0, 0, false, []⟩ .warm dryRun
  rw [sweep]
  rcases hr : s.sweepTier w nowMs dryRun ⟨dryRun, 0, 0, 0, false, []⟩ .warm with ⟨s₁, _ | report₁⟩
  · rw [hr] at hwarm hlist hsame
    simp only
    refine ⟨hwarm.mono ?_, ?_, ?_, ?_⟩
    · cases dryRun with
      | true => exact List.Subset.refl _
      | false => simp [plan]
    · rintro _ ⟨⟩
    · intro hlists hdry
      exact absurd rfl (hlist (hlists .warm) hdry)
    · rintro (h | h)
      · exact hsame (.inl h)
      · exact hsame (.inr (List.append_eq_nil_iff.mp h).1)
  · rw [hr] at hwarm hwarm' hsame
    simp only
    have hdue : s₁.due .cold nowMs = s.due .cold nowMs := by
      cases dryRun with
      | true =>
        have hs₁ : s₁ = s := hsame (.inl rfl)
        rw [hs₁]
      | false => exact due_of_within hs (by decide) hwarm
    obtain ⟨hcold, hcold', hlist', hsame'⟩ := @sweepTier_spec w nowMs s₁ report₁ .cold dryRun
    have hlists : ∀ tier, s₁.Lists w tier ↔ s.Lists w tier := by
      intro tier
      rw [Lists, Lists, hwarm.config]
    obtain ⟨hlistsWarm, hparts⟩ := hwarm' report₁ rfl
    rw [hdue] at hcold hcold' hsame'
    refine ⟨?_, ?_, ?_, ?_⟩
    · cases dryRun with
      | true => exact hwarm.trans hcold
      | false =>
        rw [plan, List.map_append]
        exact hwarm.trans hcold
    · intro report h
      obtain ⟨hlistsCold, hparts'⟩ := hcold' report h
      refine ⟨?_, ?_⟩
      · intro tier
        cases tier
        · exact hlistsWarm
        · exact (hlists .cold).mp hlistsCold
      · rw [hparts', hparts]
        rfl
    · intro hall hdry
      exact hlist' ((hlists .cold).mpr (hall .cold)) hdry
    · intro h
      have hcold₁ : (s₁.sweepTier w nowMs dryRun report₁ .cold).1 = s₁ := by
        apply hsame'
        rcases h with h | h
        · exact .inl h
        · exact .inr (List.append_eq_nil_iff.mp h).2
      rw [hcold₁]
      apply hsame
      rcases h with h | h
      · exact .inl h
      · exact .inr (List.append_eq_nil_iff.mp h).1

theorem expired_of_mem_plan (hs : s.Inv) (hnow : nowMs < 2 ^ 64) (hsigned : s.Signed nowMs)
    {place : Place} (h : place ∈ (s.plan nowMs).map PartRow.place) : s.Expired place nowMs := by
  obtain ⟨part, hpart, rfl⟩ := List.mem_map.mp h
  rcases List.mem_append.mp hpart with hpart | hpart
  · exact expired_of_mem_due hs hnow hsigned hpart
  · exact expired_of_mem_due hs hnow hsigned hpart

theorem sweep_removes (hs : s.Inv) (hnow : nowMs < 2 ^ 64) (hsigned : s.Signed nowMs)
    {dryRun : Bool} {place : Place} (h : s.Removes (s.sweep w nowMs dryRun).1 place) : s.Expired place nowMs := by
  have hmem := (sweep_spec hs w nowMs dryRun).1.mem_of_removes h
  cases dryRun with
  | true => cases hmem
  | false => exact expired_of_mem_plan hs hnow hsigned hmem

theorem forecast (hs : s.Inv) (w : Weather) (nowMs : ℕ) : s.Forecast w nowMs := by
  obtain ⟨hreal, hreal', -, -⟩ := sweep_spec hs w nowMs false
  obtain ⟨-, hdry, hlists, -⟩ := sweep_spec hs w nowMs true
  constructor
  · intro report h
    obtain ⟨hall, hparts⟩ := hreal' report h
    obtain ⟨forecast, hforecast⟩ := Option.ne_none_iff_exists'.mp (hlists hall rfl)
    exact ⟨forecast, hforecast, by rw [(hdry forecast hforecast).2, hparts]⟩
  · intro forecast h place hplace
    rw [(hdry forecast h).2]
    exact hreal.mem_of_removes hplace

/-- A body that is not blank sweeps only if it gives the value false. -/
theorem saysFalse_of_parse {body : List UInt8} (h : parseDryRun body = some false) :
    SaysFalse body := by
  obtain ⟨text, htext, h⟩ := Option.bind_eq_some_iff.mp h
  obtain ⟨v, hv, h⟩ := Option.bind_eq_some_iff.mp h
  refine ⟨v, by rw [htext]; exact hv, ?_⟩
  unfold readDryRun at h
  split at h
  · cases h
  · next key value =>
    split at h
    · next hkey =>
      unfold Serde.readBool at h
      split at h
      · next b =>
        cases h
        exact .inl (by rw [hkey])
      · cases h
    · cases h
  · cases h
  · next value =>
    unfold Serde.readBool at h
    split at h
    · next b =>
      cases h
      exact .inr rfl
    · cases h
  · cases h

/-! ## Every run -/

theorem inv_fresh (config : SweepConfig) : (fresh config).Inv := ⟨List.nodup_nil, by simp [fresh]⟩

theorem inv_recordPeerPart (hs : s.Inv) (node : Text) {part : CommittedPart}
    (hmax : part.maxUnixNano < 2 ^ 64) (committedMs : ℕ) :
    (s.recordPeerPart node part committedMs).1.Inv := by
  unfold recordPeerPart
  simp only
  split
  · exact hs
  · next hfresh =>
    have hnew : (⟨node, part.name⟩ : Place) ∉ s.rows.map PartRow.place := by
      intro hmem
      apply hfresh
      obtain ⟨r, hr, hplace⟩ := List.mem_map.mp hmem
      exact List.any_eq_true.mpr ⟨r, hr, beq_iff_eq.mpr hplace⟩
    constructor
    · rw [List.map_append, List.nodup_append]
      refine ⟨hs.places, List.nodup_singleton _, ?_⟩
      rintro x hx y hy rfl
      have heq : x = ⟨node, part.name⟩ := List.mem_singleton.mp hy
      exact hnew (heq ▸ hx)
    · intro row hrow
      simp only [Assoc.get_insert]
      rcases List.mem_append.mp hrow with hrow | hrow
      · have hne : row.place ≠ ⟨node, part.name⟩ := by
          intro heq
          exact hnew (heq ▸ List.mem_map_of_mem hrow)
        rw [if_neg hne]
        exact hs.committed row hrow
      · rw [List.mem_singleton.mp hrow, if_pos rfl]
        exact ⟨_, rfl, hmax, rfl⟩

theorem inv_commit (hs : s.Inv) (node : Text) {part : CommittedPart}
    (hmax : part.maxUnixNano < 2 ^ 64) (nowMs : ℕ) (writes : Bool) :
    (s.commit node part nowMs writes).1.Inv := by
  unfold commit
  split
  · exact hs
  · exact hs
  · split
    · exact hs
    · split
      · exact hs
      · split
        · exact hs
        · exact inv_recordPeerPart hs node hmax nowMs

theorem inv_markPeerPartCold (hs : s.Inv) (place : Place) (atMs : ℕ) :
    (s.markPeerPartCold place atMs).1.Inv := by
  unfold markPeerPartCold
  split
  · exact hs
  · have hplace : ∀ r : PartRow,
        (if r.place = place then { r with tier := .cold, tierMs := toI64 atMs } else r).place
          = r.place := by
      intro r
      split <;> rfl
    have hmax : ∀ r : PartRow,
        (if r.place = place then { r with tier := .cold, tierMs := toI64 atMs } else r).maxObserved
          = r.maxObserved := by
      intro r
      split <;> rfl
    constructor
    · show ((s.rows.map fun r => if r.place = place then _ else _).map PartRow.place).Nodup
      rw [List.map_map]
      simp only [Function.comp_def, hplace]
      exact hs.places
    · intro row hrow
      obtain ⟨r, hr, rfl⟩ := List.mem_map.mp hrow
      rw [hplace, hmax]
      exact hs.committed r hr

theorem inv_retire (hs : s.Inv) (node name : Text) (claimed : Option Text) (nowMs : ℕ)
    (writes : Bool) : (s.retire node name claimed nowMs writes).1.Inv := by
  unfold retire
  split
  · exact hs
  · split
    · exact hs
    · split
      · exact hs
      · have hcold := inv_markPeerPartCold hs ⟨node, name⟩ nowMs
        split
        all_goals
          next h =>
            rw [h] at hcold
            exact hcold

theorem inv_sweep (hs : s.Inv) (w : Weather) (nowMs : ℕ) (dryRun : Bool) :
    (s.sweep w nowMs dryRun).1.Inv := (sweep_spec hs w nowMs dryRun).1.inv hs

theorem inv_step (s : Central) (e : CentralEvent) (hs : s.Inv) (hfine : s.Fine e) :
    (s.step e).Inv := by
  cases e with
  | upload place size => exact ⟨hs.places, hs.committed⟩
  | commit node part nowMs writes => exact inv_commit hs node hfine nowMs writes
  | retire node name claimed nowMs writes => exact inv_retire hs node name claimed nowMs writes
  | sweep w nowMs dryRun => exact inv_sweep hs w nowMs dryRun
  | post w body clock =>
    rw [step, partsSweep]
    split
    · exact hs
    · exact inv_sweep hs w _ _

/-- What a step does in a state where it is fine. -/
theorem exact_step (hs : s.Inv) {e : CentralEvent} (hfine : s.Fine e) : s.Exact e := by
  cases e with
  | upload place size => trivial
  | commit node part nowMs writes => trivial
  | retire node name claimed nowMs writes => trivial
  | sweep w nowMs dryRun =>
    obtain ⟨hnow, hsigned⟩ := hfine
    exact ⟨fun place h => sweep_removes hs hnow hsigned h,
      fun hdry => (sweep_spec hs w nowMs dryRun).2.2.2 (.inl hdry), forecast hs w nowMs⟩
  | post w body clock =>
    obtain ⟨hsigned, hblank⟩ := hfine
    have hnow : satMul clock 1000 < 2 ^ 64 := by
      rw [satMul]
      omega
    have hsame : ∀ {place}, ¬ s.Removes s place := by
      rintro place (⟨hin, hout⟩ | ⟨hin, hout⟩)
      · exact hout hin
      · exact hout hin
    rw [Exact, partsSweep]
    cases hrequest : requestDryRun body with
    | none => exact ⟨fun place h => absurd h hsame, fun h => absurd rfl h⟩
    | some dryRun =>
      obtain ⟨-, -, -, hidle⟩ := sweep_spec hs w (satMul clock 1000) dryRun
      cases dryRun with
      | true =>
        rw [hidle (.inl rfl)]
        exact ⟨fun place h => absurd h hsame, fun h => absurd rfl h⟩
      | false =>
        refine ⟨fun place h => sweep_removes hs hnow (hsigned hrequest) h, fun hchanged => ?_⟩
        unfold requestDryRun at hrequest
        split at hrequest
        · next hbody =>
          -- nothing is due when the body is blank
          refine absurd (hidle (.inr ?_)) hchanged
          rw [plan, hblank hbody, hblank hbody]
          rfl
        · exact saysFalse_of_parse hrequest

/-- Along every run whose steps are fine, a sweep deletes only parts whose committed data is older
than the retention, a request changes something only if it says so, and a dry run lists what the
sweep at the same clock acts on. -/
theorem sweep_exact (config : SweepConfig) {es : List CentralEvent} {e : CentralEvent}
    (h : Runs.Meets step Fine (fresh config) (es ++ [e])) :
    (Runs.run step (fresh config) es).Exact e := by
  obtain ⟨hes, he⟩ := Runs.meets_concat.mp h
  exact exact_step (hes.invariant inv_step (inv_fresh config)) he

/-- Everything can be read, written and deleted. -/
def fairWeather : Weather := ⟨fun _ => true, fun _ => .deleted, fun _ => true⟩

/-- A retention of ten seconds for warm parts. -/
def exampleConfig : SweepConfig := ⟨1000, 10, 0⟩

/-- A part of 40 bytes whose newest data is at `max`. -/
def examplePart (max : ℕ) : CommittedPart where
  name := (exampleName 'a').name
  size := 40
  sha256 := List.replicate 64 'a'
  rows := 1
  minUnixNano := 0
  maxUnixNano := max
  origin := "edge-a".toList
  node := none

/-- The part is uploaded and committed. -/
def exampleCommit (max : ℕ) : List CentralEvent :=
  [.upload (exampleName 'a') 40, .commit "edge-a".toList (examplePart max) 1000 true]

/-- A request that says so, twenty seconds after the epoch, for a part of the fifth second. -/
theorem sweep_exact_request :
    let s := Runs.run step (fresh exampleConfig) (exampleCommit 5000000000)
    s.Exact (.post fairWeather (Utf8.encode "\x7b\"dry_run\": false\x7d".toList) 20) ∧
      s.Removes (s.partsSweep fairWeather (Utf8.encode "\x7b\"dry_run\": false\x7d".toList) 20).1
        (exampleName 'a') := by
  intro s
  have hgone : s.Removes
      (s.partsSweep fairWeather (Utf8.encode "\x7b\"dry_run\": false\x7d".toList) 20).1
      (exampleName 'a') := .inl (by decide +kernel)
  have hrows : s.rows.map PartRow.place = [exampleName 'a'] := by decide +kernel
  have hget : Assoc.get s.committed (exampleName 'a') = some 5000000000 := by decide +kernel
  refine ⟨sweep_exact exampleConfig ⟨trivial, ?_, ⟨?_, ?_⟩, trivial⟩, hgone⟩
  · show 5000000000 < 2 ^ 64
    omega
  · intro _ row hrow _ max hmax hlate
    have hplace : row.place ∈ s.rows.map PartRow.place := List.mem_map_of_mem hrow
    rw [hrows, List.mem_singleton] at hplace
    have hmax' : Assoc.get s.committed row.place = some max := hmax
    rw [hplace, hget, Option.some.injEq] at hmax'
    omega
  · intro hblank
    exact absurd hblank (by decide +kernel)

/-- A part of 2^63 is deleted at once, and a request without a body deletes what is due. -/
theorem sweep_too_much :
    ¬ (Runs.run step (fresh exampleConfig) (exampleCommit (2 ^ 63))).Exact
        (.sweep fairWeather 20000 false) ∧
      ¬ (Runs.run step (fresh exampleConfig) (exampleCommit 5000000000)).Exact
        (.post fairWeather [] 20) := by
  constructor
  · rintro ⟨hexpired, -⟩
    obtain ⟨row, -, -, -, max, hget, hlt⟩ :=
      hexpired (exampleName 'a') (.inl (by decide +kernel))
    have hcommitted : Assoc.get (Runs.run step (fresh exampleConfig)
        (exampleCommit (2 ^ 63))).committed (exampleName 'a') = some (2 ^ 63) := by decide +kernel
    rw [hcommitted, Option.some.injEq] at hget
    omega
  · rintro ⟨-, hsays⟩
    obtain ⟨v, hv, -⟩ := hsays fun hsame => by
      have hrows := congrArg (fun s => s.rows.length) hsame
      exact absurd hrows (by decide +kernel)
    have hnone : (Utf8.strict []).bind Json.parse = none := by rfl
    rw [hnone] at hv
    cases hv

end Central

end LogLess.Parts
