import LogLess.Lib.Apart
import LogLess.Lib.Runs
import LogLess.Sync.Signals

/-!
# What the signals remember and repeat

Every table has a cap, and the queue of the traces is the list of their table. A template or a
service that is reported as silent is flagged, and the flag stays until a bucket has it again. What is
reported as new is remembered, but only as long as the set has room.
-/

namespace LogLess.SyncSignals

open Assoc (get)
open Arith (lt)
open Capped (trackAll sweep)

variable {ν : Type} [Arith ν]

/-! ## Caps -/

/-- The keys of the tables of a bucket; the others are among those that are counted. -/
structure Bucket.Sound (b : Bucket ν) : Prop where
  totals : (b.serviceTotal.map Prod.fst).Nodup
  totals_le : b.serviceTotal.length ≤ maxPerBucket
  errors : (b.serviceErrors.map Prod.fst).Nodup
  errors_subset : b.serviceErrors.map Prod.fst ⊆ b.serviceTotal.map Prod.fst
  templates : (b.template.map Prod.fst).Nodup
  templates_le : b.template.length ≤ maxPerBucket
  severities : (b.templateSeverity.map Prod.fst).Nodup
  severities_subset : b.templateSeverity.map Prod.fst ⊆ b.template.map Prod.fst
  numbers : (b.numbers.map Prod.fst).Nodup
  numbers_mem : ∀ k ∈ b.numbers.map Prod.fst, k.1 ∈ b.template.map Prod.fst ∧ k.2 < driftSlots

omit [Arith ν] in
theorem Bucket.sound_empty : (Bucket.empty : Bucket ν).Sound where
  totals := List.nodup_nil
  totals_le := Nat.zero_le _
  errors := List.nodup_nil
  errors_subset := List.Subset.refl _
  templates := List.nodup_nil
  templates_le := Nat.zero_le _
  severities := List.nodup_nil
  severities_subset := List.Subset.refl _
  numbers := List.nodup_nil
  numbers_mem := fun _ h => nomatch h

section

variable {κ : Type} [DecidableEq κ] {counts : List (κ × ℕ)} {k : κ}

theorem length_bump_le (h : counts.length ≤ maxPerBucket) (hadmits : admits counts k = true) :
    (bump counts k).length ≤ maxPerBucket := by
  refine Capped.length_insert_le_cap h ?_ _
  rw [admits, Bool.or_eq_true, decide_eq_true_iff] at hadmits
  exact hadmits.symm

theorem mem_keys_bump {k' : κ} :
    k' ∈ (bump counts k).map Prod.fst ↔ k' = k ∨ k' ∈ counts.map Prod.fst := Assoc.mem_keys_insert

omit [DecidableEq κ] in
/-- A table whose keys are among those that are counted is as short. -/
theorem length_le_of_subset {β γ : Type} {small : List (κ × β)} {large : List (κ × γ)}
    (hn : (small.map Prod.fst).Nodup) (hsub : small.map Prod.fst ⊆ large.map Prod.fst) :
    small.length ≤ large.length := by
  have hle := (hn.subperm hsub).length_le
  rwa [List.length_map, List.length_map] at hle

end

namespace Bucket.Sound

variable {b : Bucket ν} (h : b.Sound)
include h

omit [Arith ν] in
theorem countService (service : Option Text) (severity : UInt8) :
    (b.countService service severity).Sound := by
  rw [Bucket.countService]
  split
  · next hadmits =>
    refine { h with
      totals := Assoc.nodup_keys_insert h.totals _ _
      totals_le := length_bump_le h.totals_le hadmits
      errors := ?_
      errors_subset := ?_ }
    · show ((if error ≤ severity then _ else _ : List _).map Prod.fst).Nodup
      split
      · exact Assoc.nodup_keys_insert h.errors _ _
      · exact h.errors
    · show (if error ≤ severity then _ else _ : List _).map Prod.fst ⊆ _
      intro x hx
      rw [mem_keys_bump]
      split at hx
      · exact (mem_keys_bump.1 hx).imp_right fun hx => h.errors_subset hx
      · exact .inr (h.errors_subset hx)
  · exact h

theorem countTemplate (key : Key) (severity : UInt8) (body : Text) :
    (b.countTemplate key severity body).Sound := by
  rw [Bucket.countTemplate]
  split
  · next hadmits =>
    have hnumbers : ∀ (es : List (ℕ × ν)) (table : List (NumberKey × (ν × ℕ))),
        (∀ e ∈ es, e.1 < driftSlots) → (table.map Prod.fst).Nodup →
        (∀ k ∈ table.map Prod.fst,
          k.1 ∈ (bump b.template key).map Prod.fst ∧ k.2 < driftSlots) →
        ((es.foldl (addNumber key) table).map Prod.fst).Nodup ∧
          ∀ k ∈ (es.foldl (addNumber key) table).map Prod.fst,
            k.1 ∈ (bump b.template key).map Prod.fst ∧ k.2 < driftSlots := by
      intro es
      induction es with
      | nil => exact fun table _ hn hmem => ⟨hn, hmem⟩
      | cons e es ih =>
        intro table hes hn hmem
        refine ih _ (fun x hx => hes x (List.mem_cons_of_mem e hx))
          (Assoc.nodup_keys_insert hn _ _) fun k hk => ?_
        rcases Assoc.mem_keys_insert.1 hk with rfl | hk
        · exact ⟨mem_keys_bump.2 (.inl rfl), hes e List.mem_cons_self⟩
        · exact hmem k hk
    have hslots : ∀ e ∈ (List.range driftSlots).zip (SyncSignals.numbers (ν := ν) body),
        e.1 < driftSlots := fun e he => List.mem_range.1 (List.of_mem_zip he).1
    obtain ⟨hn, hmem⟩ := hnumbers _ b.numbers hslots h.numbers fun k hk =>
      ⟨mem_keys_bump.2 (.inr (h.numbers_mem k hk).1), (h.numbers_mem k hk).2⟩
    refine { h with
      templates := Assoc.nodup_keys_insert h.templates _ _
      templates_le := length_bump_le h.templates_le hadmits
      severities := Assoc.nodup_keys_insert h.severities _ _
      severities_subset := fun x hx => ?_
      numbers := hn
      numbers_mem := hmem }
    rw [mem_keys_bump]
    exact (Assoc.mem_keys_insert.1 hx).imp_right fun hx => h.severities_subset hx
  · exact h

omit [Arith ν] in
theorem numbers_le : b.numbers.length ≤ maxPerBucket * driftSlots := by
  have hsub : b.numbers.map Prod.fst ⊆ (b.template.map Prod.fst) ×ˢ List.range driftSlots := by
    intro k hk
    obtain ⟨hkey, hslot⟩ := h.numbers_mem k hk
    exact List.mem_product.2 ⟨hkey, List.mem_range.2 hslot⟩
  have hle := (h.numbers.subperm hsub).length_le
  rw [List.length_map, List.length_product, List.length_map, List.length_range] at hle
  exact hle.trans (Nat.mul_le_mul_right _ h.templates_le)

end Bucket.Sound

namespace Signals

/-- The invariant of the tables. -/
structure Sound (s : Signals ν) : Prop where
  bucket : s.bucket.Sound
  templates : (s.templates.map Prod.fst).Nodup
  templates_le : s.templates.length ≤ maxKeys
  services : (s.services.map Prod.fst).Nodup
  services_le : s.services.length ≤ maxKeys
  share_le : s.share.length ≤ maxKeys
  drift_le : s.drift.length ≤ maxKeys
  pairs_le : s.pairs.length ≤ maxSet
  bigrams_le : s.bigrams.length ≤ maxSet
  traces : (s.traces.map Prod.fst).Nodup
  order : s.traceOrder.Nodup
  order_le : s.traceOrder.length ≤ maxTraces
  same : ∀ x, x ∈ s.traces.map Prod.fst ↔ x ∈ s.traceOrder

omit [Arith ν] in
theorem sound_new (nowMs : ℕ) (known : List Key) : (new nowMs known : Signals ν).Sound where
  bucket := Bucket.sound_empty
  templates := List.nodup_nil
  templates_le := Nat.zero_le _
  services := List.nodup_nil
  services_le := Nat.zero_le _
  share_le := Nat.zero_le _
  drift_le := Nat.zero_le _
  pairs_le := by
    have hdedup := (List.dedup_sublist (known.take maxSet)).length_le
    exact hdedup.trans (List.length_take_le _ _)
  bigrams_le := Nat.zero_le _
  traces := List.nodup_nil
  order := List.nodup_nil
  order_le := Nat.zero_le _
  same := fun _ => Iff.rfl

omit [Arith ν] in
theorem enqueue_eq {s : Signals ν} {trace old : ByteArr 16} {rest : List (ByteArr 16)}
    (h : s.traceOrder ++ [trace] = old :: rest) :
    s.enqueue trace = if maxTraces < rest.length + 1 then
      { s with traces := Assoc.erase s.traces old, traceOrder := rest }
    else { s with traceOrder := old :: rest } := by
  rw [enqueue, h]

theorem length_remember_le {κ : Type} {set : List κ} (h : set.length ≤ maxSet) (k : κ) :
    (remember set k).length ≤ maxSet := by
  rw [remember]
  split
  · next hroom =>
    rw [List.length_append, List.length_singleton]
    exact hroom
  · exact h

namespace Sound

variable {s : Signals ν} (h : s.Sound)
include h

omit [Arith ν] in
theorem observePair (nowMs : ℕ) (key : Key) (firstEver : Bool) :
    (s.observePair nowMs key firstEver).1.Sound := by
  rw [Signals.observePair]
  split
  · exact h
  · exact { h with pairs_le := length_remember_le h.pairs_le key }

omit [Arith ν] in
theorem observeFlow (nowMs : ℕ) (key : Key) (prev : Option ℕ) (firstEver : Bool) :
    (s.observeFlow nowMs key prev firstEver).1.Sound := by
  cases prev with
  | none => exact h
  | some prev =>
    rw [Signals.observeFlow]
    split
    · exact h
    · exact { h with bigrams_le := length_remember_le h.bigrams_le _ }

omit [Arith ν] in
theorem observeTrace (trace : ByteArr 16) (template : ℕ) :
    (s.observeTrace trace template).Sound := by
  have hkeys : ∀ x, x ∈ (Assoc.insert s.traces trace template).map Prod.fst
      ↔ x = trace ∨ x ∈ s.traceOrder := by
    intro x
    rw [Assoc.mem_keys_insert, h.same]
  have hnodup := Assoc.nodup_keys_insert h.traces trace template
  rw [Signals.observeTrace]
  cases hget : get s.traces trace with
  | some known =>
    have hmem : trace ∈ s.traceOrder := by
      rw [← h.same, ← Assoc.isSome_get, hget]
      rfl
    rw [Option.isNone_some, if_neg Bool.false_ne_true]
    refine { h with traces := hnodup, same := fun x => ?_ }
    rw [hkeys]
    exact ⟨fun hx => hx.elim (fun heq => heq ▸ hmem) id, .inr⟩
  | none =>
    have hnot : trace ∉ s.traceOrder := by
      rw [← h.same, ← Assoc.isSome_get, hget]
      exact Bool.false_ne_true
    have horder : (s.traceOrder ++ [trace]).Nodup :=
      List.nodup_append.2 ⟨h.order, List.nodup_singleton _, by
        intro x hx y hy
        rw [List.mem_singleton.1 hy]
        exact fun heq => hnot (heq ▸ hx)⟩
    have hmem : ∀ x, x ∈ (Assoc.insert s.traces trace template).map Prod.fst
        ↔ x ∈ s.traceOrder ++ [trace] := by
      intro x
      rw [hkeys, List.mem_append, List.mem_singleton, or_comm]
    have hlength : (s.traceOrder ++ [trace]).length ≤ maxTraces + 1 := by
      rw [List.length_append, List.length_singleton]
      exact Nat.succ_le_succ h.order_le
    rw [Option.isNone_none, if_pos rfl]
    cases hqueue : s.traceOrder ++ [trace] with
    | nil => cases (List.append_eq_nil_iff.1 hqueue).2
    | cons old rest =>
      rw [hqueue] at horder hmem hlength
      have hrest := List.nodup_cons.1 horder
      rw [enqueue_eq (s := { s with traces := Assoc.insert s.traces trace template }) hqueue]
      split
      · refine { h with
          traces := Assoc.nodup_keys_erase hnodup old
          order := hrest.2
          order_le := Nat.le_of_succ_le_succ hlength
          same := fun x => ?_ }
        rw [Assoc.keys_erase, List.mem_filter, decide_eq_true_iff, hmem, List.mem_cons]
        constructor
        · rintro ⟨heq | hx, hne⟩
          · exact absurd heq hne
          · exact hx
        · exact fun hx => ⟨.inr hx, fun heq => hrest.1 (heq ▸ hx)⟩
      · next hfits =>
        exact { h with
          traces := hnodup
          order := horder
          order_le := Nat.le_of_not_lt hfits
          same := hmem }

theorem observe (nowMs : ℕ) (record : LogRecord) (firstEver : Bool) :
    (s.observe nowMs record firstEver).1.Sound := by
  have hservice : ({ s with
      bucket := s.bucket.countService record.service record.severity.num } : Signals ν).Sound :=
    { h with bucket := h.bucket.countService _ _ }
  rw [Signals.observe]
  cases record.templateId with
  | none => exact hservice
  | some template =>
    have hpair := Sound.observePair (s := { s with
      bucket := (s.bucket.countService record.service record.severity.num).countTemplate
        (record.service, template) record.severity.num record.body })
      { h with bucket := (h.bucket.countService _ _).countTemplate _ _ _ } nowMs
      (record.service, template) firstEver
    cases record.traceId with
    | none => exact hpair
    | some trace => exact (hpair.observeTrace trace template).observeFlow _ _ _ _

end Sound

end Signals

section

variable {κ : Type} [DecidableEq κ] {counts : List (κ × ℕ)} {visitCounts : Shuffle (κ × ℕ)}
  {visit : Shuffle (κ × Tracked ν)} {saw : κ → ℕ → Tracked ν → Tracked ν × List (Finding ν)}
  {missed : κ → Tracked ν → Tracked ν × List (Finding ν)} {keep : κ × Tracked ν → Bool}
  {table : List (κ × Tracked ν)}

theorem length_closeTracked_le (h : table.length ≤ maxKeys) :
    (closeTracked counts visitCounts visit saw missed keep table).1.length ≤ maxKeys := by
  have hfilter := List.length_filter_le keep (sweep (fun k => (get counts k).isSome) missed
    visit.entries (trackAll maxKeys .default saw table (visitCounts.entries counts)).1).1
  rw [Capped.length_sweep] at hfilter
  exact hfilter.trans (Capped.length_trackAll_le h)

theorem nodup_closeTracked (h : (table.map Prod.fst).Nodup) :
    ((closeTracked counts visitCounts visit saw missed keep table).1.map Prod.fst).Nodup := by
  have hswept : ((sweep (fun k => (get counts k).isSome) missed visit.entries
      (trackAll maxKeys .default saw table (visitCounts.entries counts)).1).1.map Prod.fst).Nodup := by
    rw [Capped.keys_sweep]
    exact Capped.nodup_trackAll h
  exact hswept.sublist (List.filter_sublist.map _)

end

namespace Signals

namespace Sound

variable {s : Signals ν} (h : s.Sound)
include h

theorem closeBucket (order : Order ν) : (s.closeBucket order).after.Sound where
  bucket := Bucket.sound_empty
  templates := nodup_closeTracked h.templates
  templates_le := length_closeTracked_le h.templates_le
  services := nodup_closeTracked h.services
  services_le := length_closeTracked_le h.services_le
  share_le := Capped.length_trackAll_le h.share_le
  drift_le := Capped.length_trackAll_le h.drift_le
  pairs_le := h.pairs_le
  bigrams_le := h.bigrams_le
  traces := h.traces
  order := h.order
  order_le := h.order_le
  same := h.same

end Sound

end Signals

/-- Every table is as short as its cap says. The numbers of a bucket have none of their own: there
are at most so many for each template that is counted. -/
structure Signals.Bounded (s : Signals ν) : Prop where
  totals : s.bucket.serviceTotal.length ≤ maxPerBucket
  errors : s.bucket.serviceErrors.length ≤ maxPerBucket
  counts : s.bucket.template.length ≤ maxPerBucket
  severities : s.bucket.templateSeverity.length ≤ maxPerBucket
  numbers : s.bucket.numbers.length ≤ maxPerBucket * driftSlots
  templates : s.templates.length ≤ maxKeys
  services : s.services.length ≤ maxKeys
  share : s.share.length ≤ maxKeys
  drift : s.drift.length ≤ maxKeys
  pairs : s.pairs.length ≤ maxSet
  bigrams : s.bigrams.length ≤ maxSet
  traces : s.traces.length ≤ maxTraces
  order : s.traceOrder.length ≤ maxTraces

namespace Signals.Sound

variable {s : Signals ν} (h : s.Sound)
include h

omit [Arith ν] in
/-- The queue of the traces is the list of their table. -/
theorem perm_order : (s.traces.map Prod.fst).Perm s.traceOrder :=
  (List.perm_ext_iff_of_nodup h.traces h.order).2 h.same

omit [Arith ν] in
theorem bounded : s.Bounded where
  totals := h.bucket.totals_le
  errors := (length_le_of_subset h.bucket.errors h.bucket.errors_subset).trans h.bucket.totals_le
  counts := h.bucket.templates_le
  severities := (length_le_of_subset h.bucket.severities h.bucket.severities_subset).trans
    h.bucket.templates_le
  numbers := h.bucket.numbers_le
  templates := h.templates_le
  services := h.services_le
  share := h.share_le
  drift := h.drift_le
  pairs := h.pairs_le
  bigrams := h.bigrams_le
  traces := by
    have hlength := h.perm_order.length_eq
    rw [List.length_map] at hlength
    exact hlength.trans_le h.order_le
  order := h.order_le

end Signals.Sound

/-! ## Runs -/

variable (ν) in
/-- What there is to see of a run: the buckets that are closed, each before its findings. -/
inductive Note where
  | closed (c : Signals.Closing ν)
  | found (f : Finding ν)

def Signals.Closing.notes (c : Signals.Closing ν) : List (Note ν) := .closed c :: c.found.map .found

variable (ν) in
structure Watch where
  signals : Signals ν
  log : List (Note ν)

variable (ν) in
inductive Op where
  | observe (nowMs : ℕ) (record : LogRecord) (firstEver : Bool)
  | close (nowMs : ℕ) (orders : ℕ → Order ν)

namespace Watch

def start (nowMs : ℕ) (known : List Key) : Watch ν := ⟨.new nowMs known, []⟩

def step (w : Watch ν) : Op ν → Watch ν
  | .observe nowMs record firstEver =>
    let (s, found) := w.signals.observe nowMs record firstEver
    ⟨s, w.log ++ found.map .found⟩
  | .close nowMs orders =>
    let (s, closings) := w.signals.closings orders nowMs
    ⟨s, w.log ++ closings.flatMap fun c => c.notes⟩

theorem step_observe (w : Watch ν) (nowMs : ℕ) (record : LogRecord) (firstEver : Bool) :
    w.step (.observe nowMs record firstEver)
      = ⟨(w.signals.observe nowMs record firstEver).1,
        w.log ++ (w.signals.observe nowMs record firstEver).2.map .found⟩ := rfl

/-- One bucket is closed. -/
def close (w : Watch ν) (order : Order ν) : Watch ν :=
  let closing := w.signals.closeBucket order
  ⟨closing.after, w.log ++ closing.notes⟩

/-- The state after a long gap. -/
def reset (w : Watch ν) (nowMs : ℕ) : Watch ν := { w with signals := .new nowMs w.signals.pairs }

theorem closeLoop_keeps {p : Watch ν → Prop} (hclose : ∀ w order, p w → p (w.close order))
    (orders : ℕ → Order ν) (left : ℕ) {s : Signals ν} {log : List (Note ν)} (h : p ⟨s, log⟩) :
    p ⟨(s.closeLoop orders left).1,
      log ++ (s.closeLoop orders left).2.flatMap fun c => c.notes⟩ := by
  induction left generalizing s log with
  | zero =>
    rw [Signals.closeLoop, List.flatMap_nil, List.append_nil]
    exact h
  | succ left ih =>
    have hrest := ih (hclose ⟨s, log⟩ (orders left) h)
    rw [Signals.closeLoop, List.flatMap_cons, ← List.append_assoc]
    exact hrest

/-- To keep something, it is enough to keep it bucket by bucket, and over a long gap. -/
theorem step_keeps {p : Watch ν → Prop}
    (hobserve : ∀ w nowMs record firstEver, p w → p (w.step (.observe nowMs record firstEver)))
    (hclose : ∀ w order, p w → p (w.close order)) (hreset : ∀ w nowMs, p w → p (w.reset nowMs))
    (w : Watch ν) (op : Op ν) (h : p w) : p (w.step op) := by
  cases op with
  | observe nowMs record firstEver => exact hobserve w nowMs record firstEver h
  | close nowMs orders =>
    show p ⟨(w.signals.closings orders nowMs).1,
      w.log ++ (w.signals.closings orders nowMs).2.flatMap fun c => c.notes⟩
    rw [Signals.closings]
    split
    · show p ⟨.new nowMs w.signals.pairs, w.log ++ []⟩
      rw [List.append_nil]
      exact hreset w nowMs h
    · exact closeLoop_keeps hclose orders _ h

theorem sound_step (w : Watch ν) (op : Op ν) (h : w.signals.Sound) : (w.step op).signals.Sound :=
  step_keeps (p := fun w => w.signals.Sound)
    (fun _ nowMs record firstEver h => h.observe nowMs record firstEver)
    (fun _ order h => h.closeBucket order)
    (fun w nowMs _ => Signals.sound_new nowMs w.signals.pairs) w op h

end Watch

/-! ## Silence -/

/-- What is known of the key is flagged as silent. -/
def Flagged {κ : Type} [DecidableEq κ] (table : List (κ × Tracked ν)) (k : κ) : Prop :=
  ∀ t, get table k = some t → t.flagged = true

/-- It is reported and flagged, or the flag stays as it is. -/
theorem age_cases (minMean : ν) (mayReport : Bool) (finding : ℕ → ν → Finding ν) (t : Tracked ν) :
    (t.flagged = false ∧ mayReport = true ∧ ∃ base quiet mean,
        age minMean mayReport finding t = (⟨base, quiet, true⟩, [finding quiet mean])) ∨
      ∃ base quiet, age minMean mayReport finding t = (⟨base, quiet, t.flagged⟩, []) := by
  rw [age]
  generalize (if lt t.base.mean minMean then t.base.update 0.0 false else t.base) = base
  split
  · next hreport =>
    simp only [Bool.and_eq_true, Bool.not_eq_true'] at hreport
    exact .inl ⟨hreport.1.2, hreport.2, _, _, _, rfl⟩
  · exact .inr ⟨_, _, rfl⟩

section

variable {κ : Type} [DecidableEq κ] {counts : List (κ × ℕ)} {visitCounts : Shuffle (κ × ℕ)}
  {visit : Shuffle (κ × Tracked ν)} {saw : κ → ℕ → Tracked ν → Tracked ν × List (Finding ν)}
  {minMean : ν} {mayReport : κ → Bool} {finding : κ → ℕ → ν → Finding ν}
  {keep : κ × Tracked ν → Bool} {table : List (κ × Tracked ν)}

theorem mem_closeTracked {missed : κ → Tracked ν → Tracked ν × List (Finding ν)} {f : Finding ν}
    (h : f ∈ (closeTracked counts visitCounts visit saw missed keep table).2) :
    (∃ k n t, f ∈ (saw k n t).2) ∨ ∃ k t, f ∈ (missed k t).2 := by
  rcases List.mem_append.1 h with h | h
  · obtain ⟨e, -, t, hf⟩ := Capped.mem_trackAll h
    exact .inl ⟨e.1, e.2, t, hf⟩
  · obtain ⟨e, -, -, hf⟩ := Capped.mem_sweep visit.perm h
    exact .inr ⟨e.1, e.2, hf⟩

/-- A key is reported as silent at most once, and then it was not counted, was not flagged and is
flagged; and the flag of a key that was not counted stays. -/
theorem closeTracked_silence (mark : Finding ν → Bool) {k : κ} (hn : (table.map Prod.fst).Nodup)
    (hsaw : ∀ k' n t, ∀ f ∈ (saw k' n t).2, mark f = false)
    (hfinding : ∀ k' quiet mean, mark (finding k' quiet mean) = true → k' = k) :
    let closed := closeTracked counts visitCounts visit saw
      (fun k => age minMean (mayReport k) (finding k)) keep table
    closed.2.countP mark ≤ 1 ∧
      (closed.2.countP mark = 1 → get counts k = none ∧ ¬ Flagged table k ∧ Flagged closed.1 k) ∧
      (get counts k = none → Flagged table k → Flagged closed.1 k) := by
  intro closed
  have htable : ((trackAll maxKeys .default saw table (visitCounts.entries counts)).1.map
      Prod.fst).Nodup := Capped.nodup_trackAll hn
  have hmark : ∀ k' t, ∀ f ∈ (age minMean (mayReport k') (finding k') t).2, mark f = true →
      k' = k := by
    intro k' t f hf hm
    rcases age_cases minMean (mayReport k') (finding k') t with
      ⟨-, -, base, quiet, mean, heq⟩ | ⟨base, quiet, heq⟩
    · rw [heq, List.mem_singleton] at hf
      exact hfinding k' quiet mean (hf ▸ hm)
    · rw [heq] at hf
      cases hf
  have htracked : (trackAll maxKeys .default saw table (visitCounts.entries counts)).2.countP mark
      = 0 := by
    rw [List.countP_eq_zero]
    intro f hf
    obtain ⟨e, -, t, hf⟩ := Capped.mem_trackAll hf
    rw [hsaw e.1 e.2 t f hf]
    exact Bool.false_ne_true
  have hcount : closed.2.countP mark = (sweep (fun k => (get counts k).isSome)
      (fun k => age minMean (mayReport k) (finding k)) visit.entries
      (trackAll maxKeys .default saw table (visitCounts.entries counts)).1).2.countP mark :=
    List.countP_append.trans (by rw [htracked, Nat.zero_add])
  rw [Capped.countP_sweep visit.perm htable hmark] at hcount
  have hget : ∀ t, get closed.1 k = some t → get (sweep (fun k => (get counts k).isSome)
      (fun k => age minMean (mayReport k) (finding k)) visit.entries
      (trackAll maxKeys .default saw table (visitCounts.entries counts)).1).1 k = some t := by
    intro t ht
    rw [Assoc.get_eq_some_iff (by rw [Capped.keys_sweep]; exact htable)]
    exact (List.mem_filter.1 (Assoc.mem_of_get ht)).1
  cases hcounted : get counts k with
  | some n =>
    have hzero : closed.2.countP mark = 0 := by
      rw [hcount]
      split
      · rfl
      · rw [hcounted, Option.isSome_some, if_pos rfl]
    refine ⟨hzero.le.trans zero_le_one, fun hone => ?_, fun hnone => ?_⟩
    · omega
    · cases hnone
  | none =>
    have hnot : k ∉ (visitCounts.entries counts).map Prod.fst := by
      rw [((visitCounts.perm counts).map Prod.fst).mem_iff, ← Assoc.isSome_get, hcounted]
      exact Bool.false_ne_true
    have hsame : get (trackAll maxKeys .default saw table (visitCounts.entries counts)).1 k
        = get table k := Capped.get_trackAll_of_notMem hnot
    rw [hsame] at hcount
    have hafter : ∀ t, get closed.1 k = some t →
        ∃ t', get table k = some t' ∧ t = (age minMean (mayReport k) (finding k) t').1 := by
      intro t ht
      have hswept := hget t ht
      rw [Capped.get_sweep, hsame, hcounted] at hswept
      obtain ⟨t', ht', heq⟩ := Option.map_eq_some_iff.1 hswept
      exact ⟨t', ht', heq.symm⟩
    cases hold : get table k with
    | none =>
      rw [hold] at hcount
      refine ⟨hcount.le.trans zero_le_one, fun hone => ?_, fun _ _ t ht => ?_⟩
      · rw [hcount] at hone
        cases hone
      · obtain ⟨t', ht', -⟩ := hafter t ht
        rw [hold] at ht'
        cases ht'
    | some t =>
      rw [hold, hcounted] at hcount
      have hcount : closed.2.countP mark
          = (age minMean (mayReport k) (finding k) t).2.countP mark := hcount
      have hnew : Flagged closed.1 k ↔ ∀ t', get closed.1 k = some t' →
          (age minMean (mayReport k) (finding k) t).1.flagged = true := by
        refine forall₂_congr fun t' ht' => ?_
        obtain ⟨old, hsome, heq⟩ := hafter t' ht'
        rw [hold] at hsome
        rw [heq, Option.some.inj hsome]
      rw [hnew, hcount]
      rcases age_cases minMean (mayReport k) (finding k) t with
        ⟨hfree, -, base, quiet, mean, heq⟩ | ⟨base, quiet, heq⟩
      · rw [heq]
        refine ⟨List.countP_le_length, fun _ => ⟨rfl, fun hflagged => ?_, fun _ _ => rfl⟩,
          fun _ _ _ _ => rfl⟩
        rw [hflagged t hold] at hfree
        cases hfree
      · rw [heq]
        exact ⟨zero_le_one, fun hone => (nomatch hone), fun _ hflagged _ _ => hflagged t hold⟩

end

/-- What a finding is about. -/
inductive Aspect where
  | novelty
  | change
  | silence
deriving DecidableEq

def Kind.aspect : Kind ν → Aspect
  | newPair .. => .novelty
  | flow .. => .novelty
  | templateRate .. => .change
  | errorShare .. => .change
  | paramDrift .. => .change
  | silentTemplate .. => .silence
  | silentService .. => .silence

/-- It says that the template is silent. -/
def Finding.silencesTemplate (key : Key) (f : Finding ν) : Bool :=
  match f.kind with
  | .silentTemplate template _ _ => f.service = key.1 ∧ template = key.2
  | _ => false

/-- It says that the service is silent. -/
def Finding.silencesService (service : Option Text) (f : Finding ν) : Bool :=
  match f.kind with
  | .silentService _ _ => f.service = service
  | _ => false

namespace Signals

variable (s : Signals ν) (order : Order ν) (bucket : Bucket ν)

theorem change_sawTemplate (key : Key) (n : ℕ) (t : Tracked ν) :
    ∀ f ∈ (sawTemplate bucket key n t).2, f.kind.aspect = .change := by
  intro f hf
  rw [sawTemplate] at hf
  split at hf
  · rw [List.mem_singleton.1 hf]
    rfl
  · cases hf

theorem change_closeShare : ∀ f ∈ (s.closeShare order bucket).2, f.kind.aspect = .change := by
  intro f hf
  obtain ⟨e, -, b, hf⟩ := Capped.mem_trackAll hf
  rw [sawShare] at hf
  split at hf
  · rw [List.mem_singleton.1 hf]
    rfl
  · cases hf

theorem change_closeDrift : ∀ f ∈ (s.closeDrift order bucket).2, f.kind.aspect = .change := by
  intro f hf
  obtain ⟨e, -, b, hf⟩ := Capped.mem_trackAll hf
  rw [sawNumber] at hf
  split at hf
  · rw [List.mem_singleton.1 hf]
    rfl
  · cases hf

omit [Arith ν] in
theorem not_silencesTemplate {f : Finding ν} (h : f.kind.aspect ≠ .silence) (key : Key) :
    f.silencesTemplate key = false := by
  rw [Finding.silencesTemplate]
  split
  · next hkind =>
    rw [hkind] at h
    exact absurd rfl h
  · rfl

omit [Arith ν] in
theorem not_silencesService {f : Finding ν} (h : f.kind.aspect ≠ .silence)
    (service : Option Text) : f.silencesService service = false := by
  rw [Finding.silencesService]
  split
  · next hkind =>
    rw [hkind] at h
    exact absurd rfl h
  · rfl

theorem mem_closeServices {f : Finding ν} (hf : f ∈ (s.closeServices order bucket).2) :
    ∃ service quiet mean, f = ⟨service, .silentService quiet mean, false⟩ := by
  have hf : f ∈ (closeTracked bucket.serviceTotal order.totals order.services sawService
    missedService (fun e => !forgettable (serviceSilenceMinMean ν) e.2) s.services).2 := hf
  rcases mem_closeTracked hf with ⟨k, n, t, hf⟩ | ⟨k, t, hf⟩
  · cases hf
  · rcases age_cases (serviceSilenceMinMean ν) true
      (fun quiet mean => ⟨k, .silentService quiet mean, false⟩) t with
      ⟨-, -, base, quiet, mean, heq⟩ | ⟨base, quiet, heq⟩
    · rw [missedService, heq, List.mem_singleton] at hf
      exact ⟨k, quiet, mean, hf⟩
    · rw [missedService, heq] at hf
      cases hf

theorem mem_closeTemplates {f : Finding ν} (hf : f ∈ (s.closeTemplates order bucket).2) :
    f.kind.aspect = .change ∨ ∃ (key : Key) (quiet : ℕ) (mean : ν),
      f = ⟨key.1, .silentTemplate key.2 quiet mean, false⟩ ∧ key.1 ∉ s.silentServices := by
  have hf : f ∈ (closeTracked bucket.template order.counts order.templates (sawTemplate bucket)
    (missedTemplate s.silentServices)
    (fun e => (get bucket.template e.1).isSome || !forgettable (silenceMinMean ν) e.2)
    s.templates).2 := hf
  rcases mem_closeTracked hf with ⟨k, n, t, hf⟩ | ⟨k, t, hf⟩
  · exact .inl (change_sawTemplate bucket k n t f hf)
  · rcases age_cases (silenceMinMean ν) (!s.silentServices.contains k.1)
      (fun quiet mean => ⟨k.1, .silentTemplate k.2 quiet mean, false⟩) t with
      ⟨-, hmay, base, quiet, mean, heq⟩ | ⟨base, quiet, heq⟩
    · rw [missedTemplate, heq, List.mem_singleton] at hf
      exact .inr ⟨k, quiet, mean, hf, by simpa using hmay⟩
    · rw [missedTemplate, heq] at hf
      cases hf

/-- The state after the services, and after the templates. -/
theorem closeBucket_eq : ∃ share drift : List (Finding ν),
    (∀ f ∈ share ++ drift, f.kind.aspect = .change) ∧
      let services := closeServices { s with bucket := .empty } order s.bucket
      let templates := services.1.closeTemplates order s.bucket
      (s.closeBucket order).bucket = s.bucket ∧
        (s.closeBucket order).after.services = services.1.services ∧
        (s.closeBucket order).after.templates = templates.1.templates ∧
        (s.closeBucket order).found = services.2 ++ (templates.2 ++ (share ++ drift)) := by
  let services := closeServices { s with bucket := .empty } order s.bucket
  let templates := services.1.closeTemplates order s.bucket
  let share := templates.1.closeShare order s.bucket
  refine ⟨share.2, (share.1.closeDrift order s.bucket).2, fun f hf => ?_, rfl, rfl, rfl, ?_⟩
  · rcases List.mem_append.1 hf with hf | hf
    · exact change_closeShare templates.1 order s.bucket f hf
    · exact change_closeDrift share.1 order s.bucket f hf
  · show services.2 ++ templates.2 ++ share.2 ++ _ = _
    rw [List.append_assoc, List.append_assoc]
    rfl

/-- A bucket says nothing about what is new. -/
theorem closeBucket_old : ∀ f ∈ (s.closeBucket order).found, f.kind.aspect ≠ .novelty := by
  obtain ⟨share, drift, hchange, -, -, -, hfound⟩ := s.closeBucket_eq order
  intro f hf
  rw [hfound] at hf
  rcases List.mem_append.1 hf with hf | hf
  · obtain ⟨service, quiet, mean, rfl⟩ := mem_closeServices _ order s.bucket hf
    exact Aspect.noConfusion
  · rcases List.mem_append.1 hf with hf | hf
    · rcases mem_closeTemplates _ order s.bucket hf with hf | ⟨key, quiet, mean, rfl, -⟩
      · rw [hf]
        exact Aspect.noConfusion
      · exact Aspect.noConfusion
    · rw [hchange f hf]
      exact Aspect.noConfusion

omit [Arith ν] in
theorem countP_changes {mark : Finding ν → Bool}
    (hmark : ∀ f : Finding ν, f.kind.aspect ≠ .silence → mark f = false)
    {fs : List (Finding ν)} (h : ∀ f ∈ fs, f.kind.aspect = .change) : fs.countP mark = 0 := by
  rw [List.countP_eq_zero]
  intro f hf
  rw [hmark f (by rw [h f hf]; exact Aspect.noConfusion)]
  exact Bool.false_ne_true

/-- What a bucket says about the silence of a template. -/
theorem closeBucket_template (hn : (s.templates.map Prod.fst).Nodup) (key : Key) :
    let found := (s.closeBucket order).found.countP (Finding.silencesTemplate key)
    found ≤ 1 ∧
      (found = 1 → get s.bucket.template key = none ∧ ¬ Flagged s.templates key ∧
        Flagged (s.closeBucket order).after.templates key) ∧
      (get s.bucket.template key = none → Flagged s.templates key →
        Flagged (s.closeBucket order).after.templates key) := by
  obtain ⟨share, drift, hchange, -, -, htemplates, hfound⟩ := s.closeBucket_eq order
  have hservices : (closeServices { s with bucket := .empty } order s.bucket).2.countP
      (Finding.silencesTemplate key) = 0 := by
    rw [List.countP_eq_zero]
    intro f hf
    obtain ⟨service, quiet, mean, rfl⟩ := mem_closeServices _ order s.bucket hf
    exact Bool.false_ne_true
  rw [hfound, htemplates, List.countP_append, List.countP_append, hservices, Nat.zero_add,
    countP_changes (fun f hf => not_silencesTemplate hf key) hchange, Nat.add_zero]
  refine closeTracked_silence (Finding.silencesTemplate key) hn (fun k' n t f hf => ?_)
    fun k' quiet mean hmark => ?_
  · refine not_silencesTemplate ?_ key
    rw [change_sawTemplate s.bucket k' n t f hf]
    exact Aspect.noConfusion
  · have hkey := of_decide_eq_true hmark
    exact Prod.ext hkey.1 hkey.2

/-- What a bucket says about the silence of a service. -/
theorem closeBucket_service (hn : (s.services.map Prod.fst).Nodup) (service : Option Text) :
    let found := (s.closeBucket order).found.countP (Finding.silencesService service)
    found ≤ 1 ∧
      (found = 1 → get s.bucket.serviceTotal service = none ∧ ¬ Flagged s.services service ∧
        Flagged (s.closeBucket order).after.services service) ∧
      (get s.bucket.serviceTotal service = none → Flagged s.services service →
        Flagged (s.closeBucket order).after.services service) := by
  obtain ⟨share, drift, hchange, -, hservices, -, hfound⟩ := s.closeBucket_eq order
  have htemplates : ((closeServices { s with bucket := .empty } order s.bucket).1.closeTemplates
      order s.bucket).2.countP (Finding.silencesService service) = 0 := by
    rw [List.countP_eq_zero]
    intro f hf
    rcases mem_closeTemplates _ order s.bucket hf with hchange | ⟨key, quiet, mean, rfl, -⟩
    · rw [not_silencesService (by rw [hchange]; exact Aspect.noConfusion) service]
      exact Bool.false_ne_true
    · exact Bool.false_ne_true
  rw [hfound, hservices, List.countP_append, List.countP_append, htemplates, Nat.zero_add,
    countP_changes (fun f hf => not_silencesService hf service) hchange, Nat.add_zero]
  refine closeTracked_silence (Finding.silencesService service) hn (fun k' n t f hf => ?_)
    fun k' quiet mean hmark => ?_
  · cases hf
  · exact of_decide_eq_true hmark

/-- No template is reported as silent while its service is flagged. -/
theorem closeBucket_quiet {f : Finding ν} (hf : f ∈ (s.closeBucket order).found) {key : Key}
    (hmark : f.silencesTemplate key = true) {t : Tracked ν}
    (ht : get (s.closeBucket order).after.services key.1 = some t) : t.flagged = false := by
  obtain ⟨share, drift, hchange, -, hservices, -, hfound⟩ := s.closeBucket_eq order
  have hquiet : ∀ f : Finding ν, f.kind.aspect = .change → f.silencesTemplate key ≠ true := by
    intro f hf
    rw [not_silencesTemplate (by rw [hf]; exact Aspect.noConfusion) key]
    exact Bool.false_ne_true
  rw [hfound] at hf
  rcases List.mem_append.1 hf with hf | hf
  · obtain ⟨service, quiet, mean, rfl⟩ := mem_closeServices _ order s.bucket hf
    cases hmark
  · rcases List.mem_append.1 hf with hf | hf
    · rcases mem_closeTemplates _ order s.bucket hf with hf | ⟨key', quiet, mean, rfl, hnot⟩
      · exact absurd hmark (hquiet f hf)
      · have hkey : key'.1 = key.1 := (of_decide_eq_true hmark).1
        rw [hservices] at ht
        by_contra hflagged
        refine hnot (List.mem_map.2 ⟨(key.1, t), List.mem_filter.2 ⟨Assoc.mem_of_get ht, ?_⟩, hkey.symm⟩)
        simpa using hflagged
    · exact absurd hmark (hquiet f (hchange f hf))

end Signals

namespace Note

/-- A finding of some kind. -/
def isFinding (p : Finding ν → Bool) : Note ν → Bool
  | .found f => p f
  | .closed _ => false

/-- A bucket of some kind. -/
def isBucket (p : Bucket ν → Bool) : Note ν → Bool
  | .closed c => p c.bucket
  | .found _ => false

end Note

namespace Signals

variable (s : Signals ν)

omit [Arith ν] in
theorem novelty_report (nowMs learnUntilMs : ℕ) (firstEver : Bool) (service : Option Text)
    {kind : Kind ν} (hkind : kind.aspect = .novelty) :
    ∀ f ∈ report nowMs learnUntilMs firstEver service kind, f.kind.aspect = .novelty := by
  intro f hf
  rw [report] at hf
  split at hf
  · rw [List.mem_singleton.1 hf]
    exact hkind
  · cases hf

omit [Arith ν] in
theorem novelty_observePair (nowMs : ℕ) (key : Key) (firstEver : Bool) :
    ∀ f ∈ (s.observePair nowMs key firstEver).2, f.kind.aspect = .novelty := by
  intro f hf
  rw [observePair] at hf
  split at hf
  · cases hf
  · exact novelty_report _ _ _ _ rfl f hf

omit [Arith ν] in
theorem novelty_observeFlow (nowMs : ℕ) (key : Key) (prev : Option ℕ) (firstEver : Bool) :
    ∀ f ∈ (s.observeFlow nowMs key prev firstEver).2, f.kind.aspect = .novelty := by
  intro f hf
  cases prev with
  | none => cases hf
  | some prev =>
    rw [observeFlow] at hf
    split at hf
    · cases hf
    · exact novelty_report _ _ _ _ rfl f hf

omit [Arith ν] in
theorem observePair_frame (nowMs : ℕ) (key : Key) (firstEver : Bool) :
    ∃ pairs, (s.observePair nowMs key firstEver).1 = { s with pairs := pairs } := by
  rw [observePair]
  split
  · exact ⟨s.pairs, rfl⟩
  · exact ⟨_, rfl⟩

omit [Arith ν] in
theorem observeTrace_frame (trace : ByteArr 16) (template : ℕ) :
    ∃ traces order, s.observeTrace trace template
      = { s with traces := traces, traceOrder := order } := by
  rw [observeTrace]
  split
  · rw [enqueue]
    split
    · split
      · exact ⟨_, _, rfl⟩
      · exact ⟨_, _, rfl⟩
    · exact ⟨_, s.traceOrder, rfl⟩
  · exact ⟨_, s.traceOrder, rfl⟩

omit [Arith ν] in
theorem observeFlow_frame (nowMs : ℕ) (key : Key) (prev : Option ℕ) (firstEver : Bool) :
    ∃ bigrams, (s.observeFlow nowMs key prev firstEver).1 = { s with bigrams := bigrams } := by
  cases prev with
  | none => exact ⟨s.bigrams, rfl⟩
  | some prev =>
    rw [observeFlow]
    split
    · exact ⟨s.bigrams, rfl⟩
    · exact ⟨_, rfl⟩

/-- What a record can do. -/
theorem observe_cases (nowMs : ℕ) (record : LogRecord) (firstEver : Bool) :
    ∃ bucket : Bucket ν,
      (record.templateId = none ∧
        s.observe nowMs record firstEver = ({ s with bucket := bucket }, [])) ∨
      ∃ template pairs found, record.templateId = some template ∧
        observePair { s with bucket := bucket } nowMs (record.service, template) firstEver
          = ({ s with bucket := bucket, pairs := pairs }, found) ∧
        ((record.traceId = none ∧
          s.observe nowMs record firstEver
            = ({ s with bucket := bucket, pairs := pairs }, found)) ∨
        ∃ trace traces order, record.traceId = some trace ∧
          s.observe nowMs record firstEver
            = let flow := observeFlow { s with
                bucket := bucket, pairs := pairs, traces := traces, traceOrder := order }
                nowMs (record.service, template) (s.previous trace template) firstEver
              (flow.1, found ++ flow.2)) := by
  rw [observe]
  cases record.templateId with
  | none => exact ⟨_, .inl ⟨rfl, rfl⟩⟩
  | some template =>
    let counted : Signals ν := { s with
      bucket := (s.bucket.countService record.service record.severity.num).countTemplate
        (record.service, template) record.severity.num record.body }
    obtain ⟨pairs, hpair⟩ := counted.observePair_frame nowMs (record.service, template) firstEver
    have hpaired : counted.observePair nowMs (record.service, template) firstEver
        = ({ counted with pairs := pairs },
          (counted.observePair nowMs (record.service, template) firstEver).2) :=
      Prod.ext hpair rfl
    refine ⟨counted.bucket, .inr ⟨template, pairs, _, rfl, hpaired, ?_⟩⟩
    cases record.traceId with
    | none => exact .inl ⟨rfl, hpaired⟩
    | some trace =>
      obtain ⟨traces, order, htrace⟩ := observeTrace_frame { counted with pairs := pairs } trace
        template
      refine .inr ⟨trace, traces, order, rfl, ?_⟩
      show (
        let (paired, pair) := counted.observePair nowMs (record.service, template) firstEver
        let flow := (paired.observeTrace trace template).observeFlow nowMs
          (record.service, template) (paired.previous trace template) firstEver
        (flow.1, pair ++ flow.2)) = _
      rw [hpaired]
      show (
        let flow := (observeTrace { counted with pairs := pairs } trace template).observeFlow
          nowMs (record.service, template) (s.previous trace template) firstEver
        (flow.1, _ ++ flow.2)) = _
      rw [htrace]

/-- A record says nothing about silence. -/
theorem novelty_observe (nowMs : ℕ) (record : LogRecord) (firstEver : Bool) :
    ∀ f ∈ (s.observe nowMs record firstEver).2, f.kind.aspect = .novelty := by
  intro f hf
  obtain ⟨bucket, ⟨-, heq⟩ | ⟨template, pairs, found, -, hpair, ⟨-, heq⟩ |
    ⟨trace, traces, order, -, heq⟩⟩⟩ := s.observe_cases nowMs record firstEver
  · rw [heq] at hf
    cases hf
  · rw [heq] at hf
    refine novelty_observePair { s with bucket := bucket } nowMs (record.service, template)
      firstEver f ?_
    rw [hpair]
    exact hf
  · rw [heq] at hf
    rcases List.mem_append.1 hf with hf | hf
    · refine novelty_observePair { s with bucket := bucket } nowMs (record.service, template)
        firstEver f ?_
      rw [hpair]
      exact hf
    · exact novelty_observeFlow _ _ _ _ _ f hf

/-- Only the buckets that are closed change these tables. -/
theorem observe_tables (nowMs : ℕ) (record : LogRecord) (firstEver : Bool) :
    (s.observe nowMs record firstEver).1.templates = s.templates ∧
      (s.observe nowMs record firstEver).1.services = s.services := by
  obtain ⟨bucket, ⟨-, heq⟩ | ⟨template, pairs, found, -, -, ⟨-, heq⟩ |
    ⟨trace, traces, order, -, heq⟩⟩⟩ := s.observe_cases nowMs record firstEver
  · rw [heq]
    exact ⟨rfl, rfl⟩
  · rw [heq]
    exact ⟨rfl, rfl⟩
  · obtain ⟨bigrams, hflow⟩ := observeFlow_frame { s with
      bucket := bucket, pairs := pairs, traces := traces, traceOrder := order } nowMs
      (record.service, template) (s.previous trace template) firstEver
    rw [heq, hflow]
    exact ⟨rfl, rfl⟩

end Signals

/-- What is flagged in a table is what was reported last, unless a bucket has it since then. -/
structure Kept {κ : Type} [DecidableEq κ] (table : Signals ν → List (κ × Tracked ν))
    (counted : Bucket ν → κ → Bool) (mark : Finding ν → Bool) (k : κ) (w : Watch ν) : Prop where
  sound : w.signals.Sound
  scanned : ∃ pending, Apart.scan (Note.isFinding mark) (Note.isBucket fun b => counted b k) false
    w.log = some pending ∧ (pending = true → Flagged (table w.signals) k)

theorem kept_step {κ : Type} [DecidableEq κ] {table : Signals ν → List (κ × Tracked ν)}
    {counted : Bucket ν → κ → Bool} {mark : Finding ν → Bool} {k : κ}
    (hmark : ∀ f : Finding ν, f.kind.aspect ≠ .silence → mark f = false)
    (hnew : ∀ nowMs known, table (.new nowMs known) = [])
    (hobserve : ∀ (s : Signals ν) nowMs record firstEver,
      table (s.observe nowMs record firstEver).1 = table s)
    (hclose : ∀ (s : Signals ν) order, s.Sound →
      (s.closeBucket order).found.countP mark ≤ 1 ∧
        ((s.closeBucket order).found.countP mark = 1 → counted s.bucket k = false ∧
          ¬ Flagged (table s) k ∧ Flagged (table (s.closeBucket order).after) k) ∧
        (counted s.bucket k = false → Flagged (table s) k →
          Flagged (table (s.closeBucket order).after) k))
    (w : Watch ν) (op : Op ν) (h : Kept table counted mark k w) :
    Kept table counted mark k (w.step op) := by
  refine Watch.step_keeps (p := Kept table counted mark k) ?_ ?_ ?_ w op h
  · intro w nowMs record firstEver ⟨hsound, pending, hscan, hflagged⟩
    refine ⟨hsound.observe nowMs record firstEver, pending, ?_, fun hp => ?_⟩
    · have hmarks : ∀ note ∈ (w.signals.observe nowMs record firstEver).2.map Note.found,
          Note.isFinding mark note = false := by
        intro note hnote
        obtain ⟨f, hf, rfl⟩ := List.mem_map.1 hnote
        refine hmark f ?_
        rw [w.signals.novelty_observe nowMs record firstEver f hf]
        exact Aspect.noConfusion
      have hclears : ((w.signals.observe nowMs record firstEver).2.map Note.found).all
          (fun note => !Note.isBucket (fun b => counted b k) note) = true := by
        rw [List.all_map, List.all_eq_true]
        exact fun _ _ => rfl
      show Apart.scan _ _ false (w.log ++ (w.signals.observe nowMs record firstEver).2.map _) = _
      rw [Apart.scan_append, hscan, Option.bind_some, Apart.scan_of_unmarked hmarks, hclears,
        Bool.and_true]
    · show Flagged (table (w.signals.observe nowMs record firstEver).1) k
      rw [hobserve]
      exact hflagged hp
  · intro w order ⟨hsound, pending, hscan, hflagged⟩
    obtain ⟨hle, hone, hstay⟩ := hclose w.signals order hsound
    have hcount : ((w.signals.closeBucket order).found.map Note.found).countP
        (Note.isFinding mark) = (w.signals.closeBucket order).found.countP mark := List.countP_map
    have hclear : ∀ note ∈ (w.signals.closeBucket order).found.map Note.found,
        Note.isBucket (fun b => counted b k) note = false := by
      intro note hnote
      obtain ⟨f, -, rfl⟩ := List.mem_map.1 hnote
      rfl
    -- A finding needs a bucket without the key and an entry without a flag.
    have hfree : (pending && !counted w.signals.bucket k) = true →
        (w.signals.closeBucket order).found.countP mark = 0 := by
      intro hpending
      by_contra hne
      obtain ⟨-, hnot, -⟩ := hone (by omega)
      exact hnot (hflagged (Bool.and_elim_left hpending))
    refine ⟨hsound.closeBucket order, pending && !counted w.signals.bucket k
      || decide ((w.signals.closeBucket order).found.countP mark = 1), ?_, fun hp => ?_⟩
    · show Apart.scan _ _ false (w.log ++ .closed (w.signals.closeBucket order) :: _) = some _
      rw [Apart.scan_append, hscan, Option.bind_some, Apart.scan,
        if_neg (show ¬ Note.isFinding mark (.closed _) = true from Bool.false_ne_true), ← hcount]
      exact Apart.scan_of_uncleared hclear (hcount.trans_le hle) fun hp => hcount.trans (hfree hp)
    · rcases Bool.or_eq_true_iff.1 hp with hp | hp
      · obtain ⟨hpending, hcounted⟩ := Bool.and_eq_true_iff.1 hp
        exact hstay (by simpa using hcounted) (hflagged hpending)
      · exact (hone (of_decide_eq_true hp)).2.2
  · intro w nowMs ⟨hsound, pending, hscan, hflagged⟩
    refine ⟨Signals.sound_new nowMs _, pending, hscan, fun _ t ht => ?_⟩
    have hnone : get (table (.new nowMs w.signals.pairs)) k = some t := ht
    rw [hnew] at hnone
    cases hnone

omit [Arith ν] in
theorem kept_start {κ : Type} [DecidableEq κ] {table : Signals ν → List (κ × Tracked ν)}
    {counted : Bucket ν → κ → Bool} {mark : Finding ν → Bool} {k : κ} (nowMs : ℕ)
    (known : List Key) : Kept table counted mark k (Watch.start nowMs known) :=
  ⟨Signals.sound_new nowMs known, false, rfl, fun h => nomatch h⟩

omit [Arith ν] in
/-- Between two findings about a key, a bucket has it. -/
theorem Kept.between {κ : Type} [DecidableEq κ] {table : Signals ν → List (κ × Tracked ν)}
    {counted : Bucket ν → κ → Bool} {mark : Finding ν → Bool} {k : κ} {w : Watch ν}
    (h : Kept table counted mark k w) {before between after : List (Note ν)} {f g : Finding ν}
    (hlog : w.log = before ++ .found f :: between ++ .found g :: after)
    (hf : mark f = true) (hg : mark g = true) :
    ∃ c, .closed c ∈ between ∧ counted c.bucket k = true := by
  obtain ⟨pending, hscan, -⟩ := h.scanned
  obtain ⟨note, hnote, hbucket⟩ := Apart.exists_clear hscan hlog hf hg
  cases note with
  | closed c => exact ⟨c, hnote, hbucket⟩
  | found f => cases hbucket

namespace Watch

/-- Between two findings that a template is silent, a bucket has it. -/
theorem template_between {nowMs : ℕ} {known : List Key} {ops : List (Op ν)} {key : Key}
    {before between after : List (Note ν)} {f g : Finding ν}
    (hlog : (Runs.run step (start nowMs known) ops).log
      = before ++ .found f :: between ++ .found g :: after)
    (hf : f.silencesTemplate key = true) (hg : g.silencesTemplate key = true) :
    ∃ c, .closed c ∈ between ∧ (get c.bucket.template key).isSome = true := by
  have hkept : Kept Signals.templates (fun b k => (get b.template k).isSome)
      (Finding.silencesTemplate key) key (Runs.run step (start nowMs known) ops) := by
    refine Runs.run_invariant (kept_step (fun f hf => Signals.not_silencesTemplate hf key)
      (fun _ _ => rfl) (fun s _ _ _ => (s.observe_tables _ _ _).1) fun s order hsound => ?_)
      (kept_start nowMs known) ops
    have hclosed := s.closeBucket_template order hsound.templates key
    rw [Option.isSome_eq_false_iff, Option.isNone_iff_eq_none]
    exact hclosed
  exact hkept.between hlog hf hg

/-- Between two findings that a service is silent, a bucket has it. -/
theorem service_between {nowMs : ℕ} {known : List Key} {ops : List (Op ν)}
    {service : Option Text} {before between after : List (Note ν)} {f g : Finding ν}
    (hlog : (Runs.run step (start nowMs known) ops).log
      = before ++ .found f :: between ++ .found g :: after)
    (hf : f.silencesService service = true) (hg : g.silencesService service = true) :
    ∃ c, .closed c ∈ between ∧ (get c.bucket.serviceTotal service).isSome = true := by
  have hkept : Kept Signals.services (fun b k => (get b.serviceTotal k).isSome)
      (Finding.silencesService service) service (Runs.run step (start nowMs known) ops) := by
    refine Runs.run_invariant (kept_step (fun f hf => Signals.not_silencesService hf service)
      (fun _ _ => rfl) (fun s _ _ _ => (s.observe_tables _ _ _).2) fun s order hsound => ?_)
      (kept_start nowMs known) ops
    have hclosed := s.closeBucket_service order hsound.services service
    rw [Option.isSome_eq_false_iff, Option.isNone_iff_eq_none]
    exact hclosed
  exact hkept.between hlog hf hg

/-- What was not found in a record was found in a bucket, and the services that were flagged when
that bucket was closed have no template among the silent ones. -/
structure Told (w : Watch ν) : Prop where
  told : ∀ f, .found f ∈ w.log → f.kind.aspect ≠ .novelty → ∃ c, .closed c ∈ w.log ∧ f ∈ c.found
  quiet : ∀ c, .closed c ∈ w.log → ∀ f ∈ c.found, ∀ key, f.silencesTemplate key = true →
    ∀ t, get c.after.services key.1 = some t → t.flagged = false

omit [Arith ν] in
theorem told_start (nowMs : ℕ) (known : List Key) : (start nowMs known : Watch ν).Told where
  told := fun _ hf => nomatch hf
  quiet := fun _ hc => nomatch hc

theorem told_step (w : Watch ν) (op : Op ν) (h : w.Told) : (w.step op).Told := by
  refine step_keeps (p := Told) ?_ ?_ ?_ w op h
  · intro w nowMs record firstEver h
    have hlog : ∀ {note}, note ∈ (w.step (.observe nowMs record firstEver)).log →
        note ∈ w.log ∨ ∃ f : Finding ν, f.kind.aspect = .novelty ∧ note = .found f := by
      intro note hnote
      refine (List.mem_append.1 hnote).imp_right fun hnote => ?_
      obtain ⟨f, hf, rfl⟩ := List.mem_map.1 hnote
      exact ⟨f, w.signals.novelty_observe nowMs record firstEver f hf, rfl⟩
    refine ⟨fun f hf hold => ?_, fun c hc => ?_⟩
    · rcases hlog hf with hf | ⟨f, hnew, ⟨⟩⟩
      · obtain ⟨c, hc, hmem⟩ := h.told f hf hold
        exact ⟨c, List.mem_append_left _ hc, hmem⟩
      · exact absurd hnew hold
    · rcases hlog hc with hc | ⟨f, -, ⟨⟩⟩
      exact h.quiet c hc
  · intro w order h
    refine ⟨fun f hf hold => ?_, fun c hc => ?_⟩
    · rcases List.mem_append.1 hf with hf | hf
      · obtain ⟨c, hc, hmem⟩ := h.told f hf hold
        exact ⟨c, List.mem_append_left _ hc, hmem⟩
      · refine ⟨w.signals.closeBucket order, List.mem_append_right _ List.mem_cons_self, ?_⟩
        rcases List.mem_cons.1 hf with hf | hf
        · cases hf
        · obtain ⟨f', hf', heq⟩ := List.mem_map.1 hf
          cases heq
          exact hf'
    · rcases List.mem_append.1 hc with hc | hc
      · exact h.quiet c hc
      · rcases List.mem_cons.1 hc with hc | hc
        · cases hc
          exact fun f hf key hmark t ht => w.signals.closeBucket_quiet order hf hmark ht
        · obtain ⟨f, -, ⟨⟩⟩ := List.mem_map.1 hc
  · exact fun w nowMs h => ⟨h.told, h.quiet⟩

theorem told_run (nowMs : ℕ) (known : List Key) (ops : List (Op ν)) :
    (Runs.run step (start nowMs known) ops).Told :=
  Runs.run_invariant told_step (told_start nowMs known) ops

theorem sound_run (nowMs : ℕ) (known : List Key) (ops : List (Op ν)) :
    (Runs.run step (start nowMs known) ops).signals.Sound :=
  Runs.run_invariant (fun w op hw => sound_step w op hw) (Signals.sound_new nowMs known) ops

/-- Whatever is observed and however long the gaps are, the tables are bounded, and the queue of the
traces is the list of their table, without repetition. -/
theorem bounded_run (nowMs : ℕ) (known : List Key) (ops : List (Op ν)) :
    let s := (Runs.run step (start nowMs known) ops).signals
    s.Bounded ∧ (s.traces.map Prod.fst).Perm s.traceOrder ∧ s.traceOrder.Nodup := by
  intro s
  have hsound : s.Sound := sound_run nowMs known ops
  exact ⟨hsound.bounded, hsound.perm_order, hsound.order⟩

/-- A silence is found in a bucket; a template is not said to be silent where its service is; and
between two findings about a template or about a service, a bucket has it. -/
theorem silence_run (nowMs : ℕ) (known : List Key) (ops : List (Op ν)) :
    let log := (Runs.run step (start nowMs known) ops).log
    (∀ f, .found f ∈ log → f.kind.aspect = .silence → ∃ c, .closed c ∈ log ∧ f ∈ c.found) ∧
      (∀ c, .closed c ∈ log → ∀ f ∈ c.found, ∀ key, f.silencesTemplate key = true →
        ∀ t, get c.after.services key.1 = some t → t.flagged = false) ∧
      (∀ key before between after f g,
        log = before ++ .found f :: between ++ .found g :: after →
        f.silencesTemplate key = true → g.silencesTemplate key = true →
        ∃ c, .closed c ∈ between ∧ (get c.bucket.template key).isSome = true) ∧
      ∀ service before between after f g,
        log = before ++ .found f :: between ++ .found g :: after →
        f.silencesService service = true → g.silencesService service = true →
        ∃ c, .closed c ∈ between ∧ (get c.bucket.serviceTotal service).isSome = true := by
  intro log
  have htold : (Runs.run step (start nowMs known) ops).Told := told_run nowMs known ops
  refine ⟨fun f hf hsilence => htold.told f hf ?_, htold.quiet,
    fun key before between after f g hlog => template_between hlog,
    fun service before between after f g hlog => service_between hlog⟩
  rw [hsilence]
  exact Aspect.noConfusion

end Watch

end LogLess.SyncSignals
