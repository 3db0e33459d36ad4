import LogLess.Agent.Process
import LogLess.Store.Merge

/-!
# Binding a batch to its principal

`Verifier::admit` stands between a listener and the record path. It turns a batch away that
claims another tenant, chooses for every record an index the principal may write, and
rewrites the two routing attributes to what it chose. The record loop and the merge read
these attributes again; they come to the same tenant and index.

The counters for the status page are left out.
-/

namespace LogLess.Auth

open Store

/-- The indexes of its tenant a principal may touch. -/
inductive Indexes where
  | all
  | only (list : List Text)
deriving DecidableEq

def Indexes.allows (i : Indexes) (index : Text) : Bool :=
  match i with
  | .all => true
  | .only list => list.contains index

/-- Who a request is from, as far as `admit` asks. -/
structure Principal where
  tenant : Text
  indexes : Indexes
deriving DecidableEq

/-- The index a record goes to that names none, or one it may not have: the tenant's default
if the principal may write it, or else the first of its list that the tenant has. -/
def Principal.defaultIndex (p : Principal) (tenancy : Tenancy) : Option Text := do
  let default ← tenancy.defaultIndexOf p.tenant
  if p.indexes.allows default then some default
  else
    match p.indexes with
    | .all => some default
    | .only list => list.findSome? (tenancy.indexOf p.tenant)

structure Admitted where
  /-- Records that went to the default index instead of the one they named. -/
  defaulted : ℕ
  /-- Records that are taken out of the batch. -/
  refused : ℕ
deriving DecidableEq

inductive NotAdmitted where
  | wrongTenant
  | index
deriving DecidableEq

structure Verifier where
  tenancy : Tenancy
  showFloat : UInt64 → Text
  routeIndexes : Bool

/-- The attributes of one record: the first that names an index. An attribute that names
another tenant ends the call. -/
def requestedIn (showFloat : UInt64 → Text) (tenant key : Text) :
    Option Text → List Attr → Except NotAdmitted (Option Text)
  | requested, [] => .ok requested
  | requested, a :: rest =>
    if a.key = attrTenant then
      if a.value = .str tenant then requestedIn showFloat tenant key requested rest
      else .error .wrongTenant
    else if requested = none ∧ (a.key = key ∨ a.key = attrIndex) then
      requestedIn showFloat tenant key (some (a.value.toText showFloat)) rest
    else requestedIn showFloat tenant key requested rest

namespace Verifier

variable (v : Verifier) (p : Principal)

/-- The index for one record, and whether it is the default in place of the one asked for. -/
def chooseIndex (requested : Option Text) : Option Text × Bool :=
  let default := p.defaultIndex v.tenancy
  let unknown := (v.tenancy.unknownIndex p.tenant).getD .refuse
  if v.routeIndexes = false then (some [], false)
  else
    match requested with
    | none => (default, false)
    | some r =>
      match (v.tenancy.indexOf p.tenant r).filter p.indexes.allows with
      | some i => (some i, false)
      | none => if unknown = .default ∧ default.isSome then (default, true) else (none, false)

/-- The first loop: an index for every record, or none for one that is refused. -/
def choose (key : Text) : Admitted → List LogRecord → Except NotAdmitted (List (Option Text) × Admitted)
  | out, [] => .ok ([], out)
  | out, r :: rest => do
    let requested ← requestedIn v.showFloat p.tenant key none r.attributes
    let (index, defaulted) := v.chooseIndex p requested
    let out := { out with defaulted := out.defaulted + if defaulted then 1 else 0 }
    let out := { out with refused := out.refused + if index.isNone then 1 else 0 }
    let (chosen, out) ← choose key out rest
    return (index :: chosen, out)

/-- A record rewritten to its principal's tenant and the index chosen for it. -/
def rewritten (key : Text) (r : LogRecord) (index : Text) : LogRecord :=
  if v.routeIndexes = false then
    { r with attributes := r.attributes.filter fun a => a.key != attrTenant }
  else
    let kept := r.attributes.filter fun a =>
      a.key != key && a.key != attrIndex && a.key != attrTenant
    let kept :=
      if some index ≠ v.tenancy.defaultIndexOf p.tenant then kept ++ [⟨attrIndex, .str index⟩]
      else kept
    { r with
      attributes :=
        if p.tenant ≠ v.tenancy.tenant then kept ++ [⟨attrTenant, .str p.tenant⟩] else kept }

/-- The second loop: records without an index are taken out. -/
def rewriteAll (key : Text) (records : List LogRecord) (chosen : List (Option Text)) :
    List LogRecord :=
  (records.zip chosen).filterMap fun (r, index) => index.map (v.rewritten p key r)

/-- `Verifier::admit`: the batch as it leaves it, and the answer. -/
def admitBatch (records : List LogRecord) (key : Text) (whole : Bool) :
    List LogRecord × Except NotAdmitted Admitted :=
  match v.choose p key ⟨0, 0⟩ records with
  | .error e => (records, .error e)
  | .ok (chosen, out) =>
    if whole ∧ 0 < out.refused then (records, .error .index)
    else (v.rewriteAll p key records chosen, .ok out)

end Verifier

/-! ## Where an admitted record ends up -/

variable {tenancy : Tenancy} {showFloat : UInt64 → Text} {p : Principal} {key index : Text}
  {r : LogRecord}

/-- An index the tenant has and the principal may use. -/
def Principal.MayUse (p : Principal) (tenancy : Tenancy) (index : Text) : Prop :=
  tenancy.indexOf p.tenant index = some index ∧ p.indexes.allows index = true

theorem Principal.mayUse_defaultIndex (h : p.defaultIndex tenancy = some index) :
    p.MayUse tenancy index := by
  obtain ⟨default, hdefault, h⟩ := Option.bind_eq_some_iff.mp h
  split at h
  · next hallows =>
    obtain rfl := Option.some.inj h
    exact ⟨Tenancy.indexOf_default hdefault, hallows⟩
  · next hallows =>
    split at h
    · next hall => simp [hall, Indexes.allows] at hallows
    · next list hlist =>
      obtain ⟨i, hi, hindex⟩ := List.exists_of_findSome?_eq_some h
      obtain ⟨rfl, -⟩ := Tenancy.indexOf_eq_some hindex
      exact ⟨hindex, by simpa [hlist, Indexes.allows] using hi⟩

/-- What is chosen for a record that is kept. -/
theorem mayUse_chooseIndex {requested : Option Text} {defaulted : Bool}
    (h : Verifier.chooseIndex ⟨tenancy, showFloat, true⟩ p requested = (some index, defaulted)) :
    p.MayUse tenancy index := by
  simp only [Verifier.chooseIndex, Bool.true_eq_false, if_false] at h
  split at h
  · exact Principal.mayUse_defaultIndex (Prod.mk.inj h).1
  · next name =>
    split at h
    · next i hi =>
      obtain rfl : i = index := by simpa using (Prod.mk.inj h).1
      obtain ⟨hindex, hallows⟩ := Option.filter_eq_some_iff.mp hi
      obtain ⟨rfl, -⟩ := Tenancy.indexOf_eq_some hindex
      exact ⟨hindex, hallows⟩
    · split at h
      · exact Principal.mayUse_defaultIndex (Prod.mk.inj h).1
      · cases (Prod.mk.inj h).1

/-- The attributes that have no part in routing. -/
def others (key : Text) (r : LogRecord) : List Attr :=
  r.attributes.filter fun a => a.key != key && a.key != attrIndex && a.key != attrTenant

/-- The attribute for the chosen index: none for the tenant's default. -/
def indexAttr (tenancy : Tenancy) (p : Principal) (index : Text) : List Attr :=
  if some index ≠ tenancy.defaultIndexOf p.tenant then [⟨attrIndex, .str index⟩] else []

/-- The attribute for the tenant: none for the instance's own. -/
def tenantAttr (tenancy : Tenancy) (p : Principal) : List Attr :=
  if p.tenant ≠ tenancy.tenant then [⟨attrTenant, .str p.tenant⟩] else []

theorem key_of_mem_others {a : Attr} (h : a ∈ others key r) :
    a.key ≠ key ∧ a.key ≠ attrIndex ∧ a.key ≠ attrTenant := by
  have hkeys := (List.mem_filter.mp h).2
  simp only [Bool.and_eq_true, bne_iff_ne] at hkeys
  exact ⟨hkeys.1.1, hkeys.1.2, hkeys.2⟩

theorem key_of_mem_indexAttr {a : Attr} (h : a ∈ indexAttr tenancy p index) : a.key = attrIndex := by
  unfold indexAttr at h
  split at h
  · rw [List.mem_singleton.mp h]
  · cases h

theorem key_of_mem_tenantAttr {a : Attr} (h : a ∈ tenantAttr tenancy p) : a.key = attrTenant := by
  unfold tenantAttr at h
  split at h
  · rw [List.mem_singleton.mp h]
  · cases h

theorem attributes_rewritten :
    (Verifier.rewritten ⟨tenancy, showFloat, true⟩ p key r index).attributes
      = others key r ++ indexAttr tenancy p index ++ tenantAttr tenancy p := by
  simp only [Verifier.rewritten, Bool.true_eq_false, if_false, others, indexAttr, tenantAttr]
  split <;> split <;> simp

/-- A rewritten record with its index attribute moved to the end, as `route_record` leaves it. -/
def routed (tenancy : Tenancy) (p : Principal) (key : Text) (r : LogRecord) (index : Text) :
    LogRecord :=
  { r with attributes := others key r ++ tenantAttr tenancy p ++ indexAttr tenancy p index }

theorem find?_eq_none_of_keys {as : List Attr} {k : Text} (h : ∀ a ∈ as, a.key ≠ k) :
    as.find? (fun a => a.key == k) = none := by
  rw [List.find?_eq_none]
  intro a ha
  simpa using h a ha

theorem tenantOf_rewritten :
    tenancy.tenantOf (Verifier.rewritten ⟨tenancy, showFloat, true⟩ p key r index)
      = some p.tenant := by
  have hnone : (others key r ++ indexAttr tenancy p index).find? (fun a => a.key == attrTenant)
      = none := by
    apply find?_eq_none_of_keys
    intro a ha
    rcases List.mem_append.mp ha with ha | ha
    · exact (key_of_mem_others ha).2.2
    · rw [key_of_mem_indexAttr ha]
      decide
  rw [Tenancy.tenantOf, attributes_rewritten, List.find?_append, hnone, tenantAttr]
  by_cases hown : p.tenant = tenancy.tenant
  · simp [hown]
  · simp [hown]

theorem requestedIndex_rewritten :
    Tenancy.requestedIndex showFloat (Verifier.rewritten ⟨tenancy, showFloat, true⟩ p key r index)
        attrIndex
      = if some index = tenancy.defaultIndexOf p.tenant then none else some index := by
  have hothers : (others key r).find? (fun a => a.key == attrIndex) = none :=
    find?_eq_none_of_keys fun a ha => (key_of_mem_others ha).2.1
  have htenant : (tenantAttr tenancy p).find? (fun a => a.key == attrIndex) = none := by
    apply find?_eq_none_of_keys
    intro a ha
    rw [key_of_mem_tenantAttr ha]
    decide
  simp only [Tenancy.requestedIndex, attributes_rewritten, Bool.or_self, List.find?_append,
    hothers, htenant, Option.none_or, Option.or_none, indexAttr]
  by_cases hdefault : some index = tenancy.defaultIndexOf p.tenant
  · simp [hdefault]
  · simp [hdefault, AttrValue.toText]

/-- The record loop routes an admitted record to the index it was admitted for. -/
theorem routeRecord_rewritten (h : p.MayUse tenancy index) :
    tenancy.routeRecord showFloat (Verifier.rewritten ⟨tenancy, showFloat, true⟩ p key r index)
        attrIndex
      = (routed tenancy p key r index, .known index) := by
  have hroute : tenancy.routeIn p.tenant
      (if some index = tenancy.defaultIndexOf p.tenant then none else some index)
      = .known index := Tenancy.routeIn_chosen (.inl (Tenancy.routeIn_indexOf h.1))
  have hkept : (others key r ++ indexAttr tenancy p index ++ tenantAttr tenancy p).filter
      (fun a => a.key != attrIndex && a.key != attrIndex)
      = others key r ++ tenantAttr tenancy p := by
    have hothers : (others key r).filter (fun a => a.key != attrIndex && a.key != attrIndex)
        = others key r := by
      rw [List.filter_eq_self]
      intro a ha
      simpa using (key_of_mem_others ha).2.1
    have hindex : (indexAttr tenancy p index).filter
        (fun a => a.key != attrIndex && a.key != attrIndex) = [] := by
      rw [List.filter_eq_nil_iff]
      intro a ha
      simp [key_of_mem_indexAttr ha]
    have htenant : (tenantAttr tenancy p).filter
        (fun a => a.key != attrIndex && a.key != attrIndex) = tenantAttr tenancy p := by
      rw [List.filter_eq_self]
      intro a ha
      rw [key_of_mem_tenantAttr ha]
      decide
    rw [List.filter_append, List.filter_append, hothers, hindex, htenant, List.append_nil]
  have hplaced : tenancy.placed (Verifier.rewritten ⟨tenancy, showFloat, true⟩ p key r index)
      attrIndex p.tenant index = routed tenancy p key r index := by
    simp only [Tenancy.placed, attributes_rewritten, hkept, routed]
    simp only [indexAttr]
    by_cases hdefault : some index = tenancy.defaultIndexOf p.tenant
    · simp [hdefault, Verifier.rewritten]
    · simp [hdefault, Verifier.rewritten]
  rw [Tenancy.routeRecord, tenantOf_rewritten]
  simp only [requestedIndex_rewritten, hroute, hplaced]

theorem eraseP_of_keys {as : List Attr} {k : Text} (h : ∀ a ∈ as, a.key ≠ k) :
    as.eraseP (fun a => a.key == k) = as := by
  apply List.eraseP_of_forall_not
  intro a ha
  simpa using h a ha

/-- Taking the index attribute off leaves the others and the tenant. -/
theorem eraseP_routed :
    (routed tenancy p key r index).attributes.eraseP (fun a => a.key == attrIndex)
      = others key r ++ tenantAttr tenancy p := by
  have hkeys : ∀ a ∈ others key r ++ tenantAttr tenancy p, ¬ (a.key == attrIndex) = true := by
    intro a ha
    rw [beq_iff_eq]
    rcases List.mem_append.mp ha with ha | ha
    · exact (key_of_mem_others ha).2.1
    · rw [key_of_mem_tenantAttr ha]
      decide
  rw [routed, List.eraseP_append_right _ hkeys, indexAttr]
  split <;> simp

/-- What the merge stores of an admitted record: the attributes that have no part in routing. -/
theorem withoutRouting_routed :
    (withoutRouting (routed tenancy p key r index)).attributes = others key r := by
  have hkeys : ∀ a ∈ others key r, ¬ (a.key == attrTenant) = true := by
    intro a ha
    rw [beq_iff_eq]
    exact (key_of_mem_others ha).2.2
  rw [withoutRouting]
  simp only [eraseP_routed]
  rw [List.eraseP_append_right _ hkeys, tenantAttr]
  split <;> simp

/-- The partition the merge stores an admitted record in. -/
theorem partitionOf_routed (h : p.MayUse tenancy index) (templateId : Option ℕ) :
    let key := (partitionOf tenancy { routed tenancy p key r index with
      templateId := templateId }).1
    key.tenant = p.tenant ∧ key.index = index := by
  obtain ⟨-, c, i, hc, -⟩ := Tenancy.indexOf_eq_some h.1
  have hvalid := Tenancy.validIdent_of_configured hc
  have hothers : ∀ k, k = attrIndex ∨ k = attrTenant →
      (others key r).find? (fun a => a.key == k) = none := by
    rintro k (rfl | rfl)
    · exact find?_eq_none_of_keys fun a ha => (key_of_mem_others ha).2.1
    · exact find?_eq_none_of_keys fun a ha => (key_of_mem_others ha).2.2
  have hasked : strAttr (routed tenancy p key r index).attributes attrIndex
      = if some index = tenancy.defaultIndexOf p.tenant then none else some index := by
    have htenant : (tenantAttr tenancy p).find? (fun a => a.key == attrIndex) = none := by
      apply find?_eq_none_of_keys
      intro a ha
      rw [key_of_mem_tenantAttr ha]
      decide
    simp only [strAttr, routed, List.find?_append, hothers attrIndex (.inl rfl), htenant,
      Option.none_or, indexAttr]
    by_cases hdefault : some index = tenancy.defaultIndexOf p.tenant
    · simp [hdefault]
    · simp [hdefault]
  have hnamed : strAttr (others key r ++ tenantAttr tenancy p) attrTenant
      = if p.tenant = tenancy.tenant then none else some p.tenant := by
    simp only [strAttr, List.find?_append, hothers attrTenant (.inr rfl), Option.none_or,
      tenantAttr]
    by_cases hown : p.tenant = tenancy.tenant
    · simp [hown]
    · simp [hown]
  have hroute : tenancy.routeIn p.tenant
      (if some index = tenancy.defaultIndexOf p.tenant then none else some index)
      = .known index := Tenancy.routeIn_chosen (.inl (Tenancy.routeIn_indexOf h.1))
  simp only [partitionOf, eraseP_routed, hasked, hnamed]
  by_cases hown : p.tenant = tenancy.tenant
  · rw [hown] at hroute
    simp [hown, hroute]
  · simp [hown, hvalid, hroute]

/-! ## A whole batch -/

/-- The choices for a batch: one for each record, the refused ones counted. -/
theorem choose_ok {records : List LogRecord} {out out' : Admitted} {chosen : List (Option Text)}
    (h : Verifier.choose ⟨tenancy, showFloat, true⟩ p key out records = .ok (chosen, out')) :
    chosen.length = records.length ∧
      out'.refused = out.refused + (chosen.filter Option.isNone).length ∧
      ∀ index, some index ∈ chosen → p.MayUse tenancy index := by
  induction records generalizing out chosen with
  | nil =>
    obtain ⟨rfl, rfl⟩ := Prod.mk.inj (Except.ok.inj h)
    simp
  | cons r records ih =>
    simp only [Verifier.choose, bind, Except.bind] at h
    split at h
    · cases h
    · next requested _ =>
      split at h
      · cases h
      · next rest hrest =>
        obtain ⟨rfl, rfl⟩ := Prod.mk.inj (Except.ok.inj h)
        obtain ⟨hlen, hrefused, huse⟩ := ih hrest
        refine ⟨by simp [hlen], ?_, ?_⟩
        · rw [hrefused]
          by_cases hnone : (Verifier.chooseIndex ⟨tenancy, showFloat, true⟩ p requested).1.isNone
          · simp only [hnone, if_true, List.filter_cons_of_pos, List.length_cons]
            omega
          · simp only [hnone, List.filter_cons_of_neg, Bool.false_eq_true, if_false,
              not_false_eq_true, Nat.add_zero]
        · intro index hindex
          rcases List.mem_cons.mp hindex with heq | hindex
          · exact mayUse_chooseIndex (Prod.ext heq.symm rfl)
          · exact huse index hindex

theorem length_rewriteAll (v : Verifier) {records : List LogRecord} {chosen : List (Option Text)}
    (hlen : chosen.length = records.length) :
    (v.rewriteAll p key records chosen).length + (chosen.filter Option.isNone).length
      = records.length := by
  induction records generalizing chosen with
  | nil => simp [List.length_eq_zero_iff.mp hlen, Verifier.rewriteAll]
  | cons r records ih =>
    obtain ⟨index, chosen, rfl⟩ := List.exists_cons_of_length_eq_add_one hlen
    have hrest := @ih chosen (by simpa using hlen)
    simp only [Verifier.rewriteAll] at hrest
    cases index with
    | none =>
      simp [Verifier.rewriteAll]
      omega
    | some index =>
      simp [Verifier.rewriteAll]
      omega

/-- `k` is what became of the record `r`: it has the same fields and, routing aside, the same
attributes in the same order. The record loop does not refuse it, and the merge stores it,
without the routing attributes, in a partition of the principal's tenant and of an index that
the principal may write. -/
def Isolated (s : Agent.Settings) (p : Principal) (key : Text) (r k : LogRecord) : Prop :=
  k = { r with attributes := k.attributes } ∧ others key k = others key r ∧
    (s.tenancy.routeRecord s.showFloat k attrIndex).2 ≠ .refused ∧
    ∀ mined : Option ℕ, ∃ part : PartitionKey,
      part = (partitionOf s.tenancy (Agent.Intake.stored s k mined)).1 ∧
      part.tenant = p.tenant ∧ p.indexes.allows part.index = true ∧
      ∀ {δ : Type} (addLine : Miner δ) (now : ℕ) (state : δ × MergeReport)
        (batches : List Wal.Batch), Agent.Intake.stored s k mined ∈ batches.flatten →
        ∃ rows, (part, rows) ∈ (segmentRows s.tenancy addLine now state batches).2 ∧
          bare { r with attributes := others key r } ∈ rows.map bare

theorem others_rewritten :
    others key (Verifier.rewritten ⟨tenancy, showFloat, true⟩ p key r index) = others key r := by
  have hroute : ∀ as : List Attr, (∀ a ∈ as, a.key = attrIndex ∨ a.key = attrTenant) →
      as.filter (fun a => a.key != key && a.key != attrIndex && a.key != attrTenant) = [] := by
    intro as has
    rw [List.filter_eq_nil_iff]
    intro a ha
    rcases has a ha with hkey | hkey <;> simp [hkey]
  rw [others, attributes_rewritten, List.filter_append, List.filter_append,
    hroute _ fun a ha => .inl (key_of_mem_indexAttr ha),
    hroute _ fun a ha => .inr (key_of_mem_tenantAttr ha), List.append_nil, List.append_nil,
    List.filter_eq_self]
  exact fun a ha => (List.mem_filter.mp ha).2

theorem isolated_rewritten (s : Agent.Settings) (h : p.MayUse s.tenancy index) :
    Isolated s p key r (Verifier.rewritten ⟨s.tenancy, s.showFloat, true⟩ p key r index) := by
  have hroute : s.tenancy.routeRecord s.showFloat
      (Verifier.rewritten ⟨s.tenancy, s.showFloat, true⟩ p key r index) attrIndex
      = (routed s.tenancy p key r index, .known index) := routeRecord_rewritten h
  refine ⟨?_, others_rewritten, by simp [hroute], ?_⟩
  · simp [Verifier.rewritten]
  · intro mined
    have hstored : Agent.Intake.stored s
        (Verifier.rewritten ⟨s.tenancy, s.showFloat, true⟩ p key r index) mined
        = { routed s.tenancy p key r index with templateId := r.templateId.or mined } := by
      simp only [Agent.Intake.stored, hroute]
      rfl
    obtain ⟨htenant, hindex⟩ := @partitionOf_routed s.tenancy p key index r h (r.templateId.or mined)
    refine ⟨_, rfl, ?_, ?_, ?_⟩
    · rw [hstored]
      exact htenant
    · rw [hstored, hindex]
      exact h.2
    · intro δ addLine now state batches hmem
      refine (mem_segmentRows s.tenancy addLine now state batches).mpr ⟨_, hmem, rfl, ?_⟩
      have hattrs : (withoutRouting (routed s.tenancy p key r index)).attributes = others key r :=
        withoutRouting_routed
      rw [hstored]
      simp only [bare, withoutRouting] at hattrs ⊢
      rw [hattrs]
      rfl

theorem isolated_rewriteAll (s : Agent.Settings) {records : List LogRecord}
    {chosen : List (Option Text)} (hlen : chosen.length = records.length)
    (huse : ∀ index, some index ∈ chosen → p.MayUse s.tenancy index) :
    ∃ origins, origins.Sublist records ∧ List.Forall₂ (Isolated s p key) origins
      (Verifier.rewriteAll ⟨s.tenancy, s.showFloat, true⟩ p key records chosen) := by
  induction records generalizing chosen with
  | nil => exact ⟨[], .slnil, by simp [Verifier.rewriteAll]⟩
  | cons r records ih =>
    obtain ⟨index, chosen, rfl⟩ := List.exists_cons_of_length_eq_add_one hlen
    obtain ⟨origins, hsub, hkept⟩ := @ih chosen (by simpa using hlen)
      fun index hindex => huse index (List.mem_cons_of_mem _ hindex)
    cases index with
    | none => exact ⟨origins, hsub.cons r, by simpa [Verifier.rewriteAll] using hkept⟩
    | some index =>
      refine ⟨r :: origins, hsub.cons_cons r, ?_⟩
      simp only [Verifier.rewriteAll, List.zip_cons_cons, List.filterMap_cons, Option.map_some]
      exact .cons (isolated_rewritten s (huse index List.mem_cons_self)) hkept

/-- **Tenant isolation on ingest.** A batch that is not admitted is left as it was. Of one
that is admitted, the records kept and those refused make up the batch, and each record that
is kept ends up in a partition of the principal's tenant and of an index it may write,
whatever attributes its sender gave it. -/
theorem admit_isolates (s : Agent.Settings) (p : Principal) (records : List LogRecord)
    (key : Text) (whole : Bool) :
    let result := Verifier.admitBatch ⟨s.tenancy, s.showFloat, true⟩ p records key whole
    (∀ e, result.2 = .error e → result.1 = records) ∧
      ∀ out, result.2 = .ok out → result.1.length + out.refused = records.length ∧
        ∃ origins, origins.Sublist records ∧
          List.Forall₂ (Isolated s p key) origins result.1 := by
  intro result
  have hcases : (result.1 = records ∧ ∃ e, result.2 = .error e) ∨
      ∃ chosen out, Verifier.choose ⟨s.tenancy, s.showFloat, true⟩ p key ⟨0, 0⟩ records
        = .ok (chosen, out) ∧ result.2 = .ok out ∧
        result.1 = Verifier.rewriteAll ⟨s.tenancy, s.showFloat, true⟩ p key records chosen := by
    simp only [result, Verifier.admitBatch]
    split
    · exact .inl ⟨rfl, _, rfl⟩
    · next chosen out hchoose =>
      split
      · exact .inl ⟨rfl, _, rfl⟩
      · exact .inr ⟨chosen, out, hchoose, rfl, rfl⟩
  rcases hcases with ⟨hsame, e, he⟩ | ⟨chosen, out, hchoose, hout, hkept⟩
  · refine ⟨fun _ _ => hsame, ?_⟩
    intro out hout
    rw [he] at hout
    cases hout
  · obtain ⟨hlen, hrefused, huse⟩ := choose_ok hchoose
    refine ⟨?_, ?_⟩
    · intro e he
      rw [hout] at he
      cases he
    · intro out' hout'
      obtain rfl : out = out' := by
        rw [hout] at hout'
        exact Except.ok.inj hout'
      rw [hkept, hrefused, Nat.zero_add]
      exact ⟨length_rewriteAll _ hlen, isolated_rewriteAll s hlen huse⟩

end LogLess.Auth
