import LogLess.Lib.Runs
import LogLess.Store.Schema

/-!
# The registry of typed columns over the life of a store

A pass of the merger or of the compactor reads the layout, and for each file that it writes plans
promotions, registers them and writes the file with the layout extended by them. It can be cut off
between any two of these steps. A catalog can be rebuilt from what the footers declare, also one
that was lost.

What one service's promotions do is `Promoted`, what a whole plan does is `Planned`; the results
about runs follow from the latter and from what a registration does to rows it does not collide
with.
-/

namespace LogLess.Typed

/-! ## What a plan promises -/

section

variable (layout : TypedLayout) (config : TypedColumnsConfig) (now : ℕ)

def full (out : List TypedColumn) : Prop :=
  config.maxColumns ≤ layout.columns.length + out.length

/-- What the promotions of one service do: `more` is promoted. -/
structure Promoted (service : Text) (budget : ℕ)
    (candidates : List (Text × KeyStats × ColumnType)) (s s' : PlanState)
    (more : List TypedColumn) : Prop where
  out : s'.out = s.out ++ more
  taken : ∀ column, column ∈ s'.taken ↔ column ∈ s.taken ∨ column ∈ more.map TypedColumn.column
  mine : ∀ c ∈ more, c.service = service
  named : ∀ c ∈ more, Named c
  fresh : ∀ c ∈ more, c.column ∉ s.taken
  unique : (more.map TypedColumn.column).Nodup
  few : more.length ≤ budget
  room : layout.columns.length + s.out.length ≤ config.maxColumns →
    layout.columns.length + s'.out.length ≤ config.maxColumns
  /-- What is left out has no column of its own, unless there is room for no more. -/
  all : more.length = budget ∨ full layout config s'.out ∨
    ∀ c ∈ candidates, ∀ column, columnName c.1 = some column → column ∈ s'.taken

theorem promoted_promote (service : Text) (candidates : List (Text × KeyStats × ColumnType))
    (budget : ℕ) (s : PlanState) :
    ∃ more, Promoted layout config service budget candidates s
      (promote layout config now service budget candidates s) more := by
  -- nothing is promoted of no candidates, without a budget or without room
  have hnone : ∀ {budget : ℕ} {candidates : List (Text × KeyStats × ColumnType)} {s : PlanState},
      (0 = budget ∨ full layout config s.out ∨
        ∀ c ∈ candidates, ∀ column, columnName c.1 = some column → column ∈ s.taken) →
      Promoted layout config service budget candidates s s [] := by
    intro budget candidates s hall
    constructor
    case out => exact (List.append_nil _).symm
    case taken => simp
    case room => exact id
    case all => exact hall
    case few => exact Nat.zero_le budget
    all_goals simp
  induction candidates generalizing budget s with
  | nil => exact ⟨[], hnone (.inr (.inr (by simp)))⟩
  | cons candidate candidates ih =>
    obtain ⟨key, stats, ty⟩ := candidate
    rw [promote]
    split
    · next hstop =>
      refine ⟨[], hnone ?_⟩
      rcases hstop with hbudget | hfull
      · exact .inl hbudget.symm
      · exact .inr (.inl hfull)
    · next hgo =>
      -- a candidate that is passed over, because of its name
      have hskip : (∀ column, columnName key = some column → column ∈ s.taken) →
          ∃ more, Promoted layout config service budget ((key, stats, ty) :: candidates) s
            (promote layout config now service budget candidates s) more := by
        intro hkey
        obtain ⟨more, hmore⟩ := ih budget s
        refine ⟨more, { hmore with all := ?_ }⟩
        rcases hmore.all with hbudget | hfull | hall
        · exact .inl hbudget
        · exact .inr (.inl hfull)
        · refine .inr (.inr fun c hc column hcolumn => ?_)
          rcases List.mem_cons.mp hc with rfl | hc
          · exact (hmore.taken column).mpr (.inl (hkey column hcolumn))
          · exact hall c hc column hcolumn
      split
      · next hname =>
        apply hskip
        intro column hcolumn
        rw [hname] at hcolumn
        cases hcolumn
      · next column hname =>
        split
        · next htaken =>
          apply hskip
          intro column' hcolumn
          rw [hname] at hcolumn
          cases hcolumn
          exact List.contains_iff_mem.mp htaken
        · next htaken =>
          have hfresh : column ∉ s.taken := fun h => htaken (List.contains_iff_mem.mpr h)
          obtain ⟨more, hmore⟩ := ih (budget - 1)
            { taken := column :: s.taken, out := s.out ++ [⟨column, key, ty, service, now⟩] }
          have hbudget : budget ≠ 0 := fun h => hgo (.inl h)
          have hroom : ¬ config.maxColumns ≤ layout.columns.length + s.out.length :=
            fun h => hgo (.inr h)
          refine ⟨⟨column, key, ty, service, now⟩ :: more, ?_⟩
          constructor
          case out => rw [hmore.out, List.append_assoc, List.singleton_append]
          case taken =>
            intro column'
            rw [hmore.taken, List.mem_cons, List.map_cons, List.mem_cons]
            tauto
          case mine =>
            intro c hc
            rcases List.mem_cons.mp hc with rfl | hc
            · rfl
            · exact hmore.mine c hc
          case named =>
            intro c hc
            rcases List.mem_cons.mp hc with rfl | hc
            · exact hname
            · exact hmore.named c hc
          case fresh =>
            intro c hc
            rcases List.mem_cons.mp hc with rfl | hc
            · exact hfresh
            · exact fun h => hmore.fresh c hc (List.mem_cons_of_mem _ h)
          case unique =>
            rw [List.map_cons, List.nodup_cons]
            refine ⟨fun h => ?_, hmore.unique⟩
            obtain ⟨c, hc, heq⟩ := List.mem_map.mp h
            exact hmore.fresh c hc (heq ▸ List.mem_cons_self)
          case few =>
            have hfew := hmore.few
            rw [List.length_cons]
            omega
          case room =>
            intro _
            apply hmore.room
            rw [List.length_append, List.length_singleton]
            omega
          case all =>
            rcases hmore.all with hall | hfull | hall
            · left
              rw [List.length_cons]
              omega
            · exact .inr (.inl hfull)
            · refine .inr (.inr fun c hc column' hcolumn => ?_)
              rcases List.mem_cons.mp hc with rfl | hc
              · rw [hname] at hcolumn
                cases hcolumn
                exact (hmore.taken column).mpr (.inl List.mem_cons_self)
              · exact hall c hc column' hcolumn

/-- Without a budget, and for candidates whose columns are taken, nothing is promoted. -/
theorem promote_eq_self {service : Text} {candidates : List (Text × KeyStats × ColumnType)}
    {budget : ℕ} {s : PlanState} (h : budget = 0 ∨
      ∀ c ∈ candidates, ∀ column, columnName c.1 = some column → column ∈ s.taken) :
    promote layout config now service budget candidates s = s := by
  induction candidates with
  | nil => rw [promote]
  | cons candidate candidates ih =>
    obtain ⟨key, stats, ty⟩ := candidate
    have hrest : promote layout config now service budget candidates s = s :=
      ih (h.imp_right fun h c hc => h c (List.mem_cons_of_mem _ hc))
    rw [promote]
    split
    · rfl
    · next hgo =>
      have hkey := (h.resolve_left fun h => hgo (.inl h)) (key, stats, ty) List.mem_cons_self
      split
      · exact hrest
      · next column hname =>
        rw [if_pos (List.contains_iff_mem.mpr (hkey column hname))]
        exact hrest

end

section

variable (atLeast : ℕ → UInt64 → ℕ → Bool) (layout : TypedLayout) (config : TypedColumnsConfig)
  (records : List (LogRecord × ℕ)) (stride now : ℕ)

def recordsOf (service : Text) : List (LogRecord × ℕ) :=
  records.filter fun (r, _) => r.service.getD [] == service

def sampledOf (service : Text) : List (LogRecord × ℕ) :=
  (recordsOf records service).filter fun (_, row) => row % stride == 0

/-- The statistics of the keys of a service that are not promoted yet. -/
def statsOf (service : Text) : List (Text × KeyStats) :=
  ((sampledOf records stride service).flatMap fun (r, _) => judged layout [] r.attributes).foldl
    observeAttr []

def candidateOf (sampled : ℕ) (e : Text × KeyStats) : Option (Text × KeyStats × ColumnType) :=
  if atLeast e.2.present config.minPresence sampled then
    (e.2.stableType atLeast config.minTypeShare config.maxStringBytes).map fun ty => (e.1, e.2, ty)
  else none

def candidatesOf (service : Text) : List (Text × KeyStats × ColumnType) :=
  ((statsOf layout records stride service).filterMap
    (candidateOf atLeast config (sampledOf records stride service).length)).insertionSort
      fun a b => candidateLe a b

def tooFew (service : Text) : Prop :=
  (recordsOf records service).length < config.minRows ∨
    (sampledOf records stride service).length = 0

instance (service : Text) : Decidable (tooFew config records stride service) :=
  inferInstanceAs (Decidable (_ ∨ _))

theorem planService_eq (s : PlanState) (service : Text) :
    planService atLeast layout config records stride now s service
      = if tooFew config records stride service then s
        else promote layout config now service (config.maxPerService - layout.chargedTo service)
          (candidatesOf atLeast layout config records stride service) s := rfl

/-- What the promotions of several services do. -/
structure Planned (services : List Text) (s s' : PlanState) (more : List TypedColumn) :
    Prop where
  out : s'.out = s.out ++ more
  taken : ∀ column, column ∈ s'.taken ↔ column ∈ s.taken ∨ column ∈ more.map TypedColumn.column
  mine : ∀ c ∈ more, c.service ∈ services
  named : ∀ c ∈ more, Named c
  fresh : ∀ c ∈ more, c.column ∉ s.taken
  unique : (more.map TypedColumn.column).Nodup
  few : ∀ service, (more.filter fun c => c.service == service).length
    ≤ config.maxPerService - layout.chargedTo service
  room : layout.columns.length + s.out.length ≤ config.maxColumns →
    layout.columns.length + s'.out.length ≤ config.maxColumns
  all : ∀ service ∈ services, tooFew config records stride service ∨
    (more.filter fun c => c.service == service).length
      = config.maxPerService - layout.chargedTo service ∨ full layout config s'.out ∨
    ∀ c ∈ candidatesOf atLeast layout config records stride service,
      ∀ column, columnName c.1 = some column → column ∈ s'.taken

variable {atLeast layout config records stride now} in
theorem filter_service {service service' : Text} {more : List TypedColumn}
    (h : ∀ c ∈ more, c.service = service) :
    more.filter (fun c => c.service == service') = if service = service' then more else [] := by
  split
  · next heq =>
    refine List.filter_eq_self.mpr fun c hc => ?_
    rw [h c hc, heq, beq_self_eq_true]
  · next hne =>
    refine List.filter_eq_nil_iff.mpr fun c hc => ?_
    rw [h c hc, beq_iff_eq]
    exact hne

theorem planned_planService (service : Text) (s : PlanState) :
    ∃ more, Planned atLeast layout config records stride [service] s
      (planService atLeast layout config records stride now s service) more := by
  rw [planService_eq]
  split
  · next hfew =>
    refine ⟨[], ?_⟩
    constructor
    case out => exact (List.append_nil _).symm
    case taken => simp
    case room => exact id
    case all =>
      intro service' hservice
      rw [List.mem_singleton.mp hservice]
      exact .inl hfew
    all_goals simp
  · obtain ⟨more, hmore⟩ := promoted_promote layout config now service
      (candidatesOf atLeast layout config records stride service)
      (config.maxPerService - layout.chargedTo service) s
    refine ⟨more, ?_⟩
    constructor
    case out => exact hmore.out
    case taken => exact hmore.taken
    case mine => exact fun c hc => List.mem_singleton.mpr (hmore.mine c hc)
    case named => exact hmore.named
    case fresh => exact hmore.fresh
    case unique => exact hmore.unique
    case few =>
      intro service'
      rw [filter_service hmore.mine]
      split
      · next heq => rw [← heq]; exact hmore.few
      · exact Nat.zero_le _
    case room => exact hmore.room
    case all =>
      intro service' hservice
      rw [List.mem_singleton.mp hservice, filter_service hmore.mine, if_pos rfl]
      exact .inr hmore.all

variable {atLeast layout config records stride now} in
/-- The promotions of the first service do not change what is left for the others. -/
theorem Planned.cons {service : Text} {services : List Text} {s s' s'' : PlanState}
    {more more' : List TypedColumn} (hnotin : service ∉ services)
    (h : Planned atLeast layout config records stride [service] s s' more)
    (h' : Planned atLeast layout config records stride services s' s'' more') :
    Planned atLeast layout config records stride (service :: services) s s'' (more ++ more') := by
  have hmine : ∀ c ∈ more, c.service = service := fun c hc => List.mem_singleton.mp (h.mine c hc)
  have hother : more'.filter (fun c => c.service == service) = [] := by
    refine List.filter_eq_nil_iff.mpr fun c hc heq => ?_
    rw [beq_iff_eq] at heq
    exact hnotin (heq ▸ h'.mine c hc)
  have hgrow : ∀ column, column ∈ s'.taken → column ∈ s''.taken :=
    fun column hc => (h'.taken column).mpr (.inl hc)
  constructor
  case out => rw [h'.out, h.out, List.append_assoc]
  case taken =>
    intro column
    rw [h'.taken, h.taken, List.map_append, List.mem_append, or_assoc]
  case mine =>
    intro c hc
    rcases List.mem_append.mp hc with hc | hc
    · exact List.mem_cons.mpr (.inl (hmine c hc))
    · exact List.mem_cons_of_mem _ (h'.mine c hc)
  case named =>
    intro c hc
    rcases List.mem_append.mp hc with hc | hc
    · exact h.named c hc
    · exact h'.named c hc
  case fresh =>
    intro c hc
    rcases List.mem_append.mp hc with hc | hc
    · exact h.fresh c hc
    · exact fun hs => h'.fresh c hc ((h.taken _).mpr (.inl hs))
  case unique =>
    rw [List.map_append]
    refine List.nodup_append'.mpr ⟨h.unique, h'.unique, fun column hc hc' => ?_⟩
    obtain ⟨c, hmem, rfl⟩ := List.mem_map.mp hc'
    exact h'.fresh c hmem ((h.taken _).mpr (.inr hc))
  case few =>
    intro service'
    rw [List.filter_append, filter_service hmine]
    split
    · next heq =>
      have hfew := h.few service
      rw [filter_service hmine, if_pos rfl] at hfew
      rw [← heq, hother, List.append_nil]
      exact hfew
    · exact h'.few service'
  case room => exact fun hroom => h'.room (h.room hroom)
  case all =>
    intro service' hservice
    rcases List.mem_cons.mp hservice with rfl | hservice
    · rw [List.filter_append, hother, List.append_nil]
      rcases h.all service' List.mem_cons_self with hfew | hbudget | hfull | hall
      · exact .inl hfew
      · exact .inr (.inl hbudget)
      · refine .inr (.inr (.inl ?_))
        rw [full, h'.out, List.length_append]
        rw [full] at hfull
        omega
      · exact .inr (.inr (.inr fun c hc column hcolumn => hgrow _ (hall c hc column hcolumn)))
    · have hne : service ≠ service' := fun heq => hnotin (heq ▸ hservice)
      rw [List.filter_append, filter_service hmine, if_neg hne, List.nil_append]
      exact h'.all service' hservice

theorem planned_foldl {services : List Text} (hnodup : services.Nodup) (s : PlanState) :
    ∃ more, Planned atLeast layout config records stride services s
      (services.foldl (planService atLeast layout config records stride now) s) more := by
  induction services generalizing s with
  | nil =>
    refine ⟨[], ?_⟩
    constructor
    case out => exact (List.append_nil _).symm
    case taken => simp
    case room => exact id
    all_goals simp
  | cons service services ih =>
    obtain ⟨hnotin, hnodup⟩ := List.nodup_cons.mp hnodup
    obtain ⟨more, hmore⟩ := planned_planService atLeast layout config records stride now service s
    obtain ⟨more', hmore'⟩ := ih hnodup
      (planService atLeast layout config records stride now s service)
    exact ⟨more ++ more', hmore.cons hnotin hmore'⟩

end

/-! ## What a plan is -/

section

variable (atLeast : ℕ → UInt64 → ℕ → Bool) (layout : TypedLayout) (config : TypedColumnsConfig)
  (records : List LogRecord) (now : ℕ)

def strideOf : ℕ := max (records.length / sampleRows) 1

def servicesOf : List Text :=
  (records.map fun r => r.service.getD []).dedup.insertionSort (· ≤ ·)

theorem nodup_servicesOf : (servicesOf records).Nodup :=
  (List.perm_insertionSort _ _).nodup_iff.mpr (List.nodup_dedup _)

theorem plan_of_closed (h : config.maxPerService = 0 ∨ full layout config []) :
    plan atLeast layout config records now = [] := if_pos h

theorem planned_plan (h : ¬ (config.maxPerService = 0 ∨ full layout config [])) :
    ∃ s', Planned atLeast layout config records.zipIdx (strideOf records) (servicesOf records)
      ⟨layout.columns.map TypedColumn.column, []⟩ s'
      (plan atLeast layout config records now) := by
  obtain ⟨more, hmore⟩ := planned_foldl atLeast layout config records.zipIdx (strideOf records)
    now (nodup_servicesOf records) ⟨layout.columns.map TypedColumn.column, []⟩
  have hout : plan atLeast layout config records now = more := by
    have hplan : plan atLeast layout config records now
        = ((servicesOf records).foldl (planService atLeast layout config records.zipIdx
          (strideOf records) now) ⟨layout.columns.map TypedColumn.column, []⟩).out := if_neg h
    rw [hplan, hmore.out, List.nil_append]
  rw [hout]
  exact ⟨_, hmore⟩

/-- A plan promotes under names that are not in use. -/
theorem plan_fresh (h : (layout.columns.map TypedColumn.column).Nodup) :
    ((layout.columns ++ plan atLeast layout config records now).map TypedColumn.column).Nodup := by
  by_cases hclosed : config.maxPerService = 0 ∨ full layout config []
  · rw [plan_of_closed atLeast layout config records now hclosed, List.append_nil]
    exact h
  · obtain ⟨s', hplan⟩ := planned_plan atLeast layout config records now hclosed
    rw [List.map_append]
    refine List.nodup_append'.mpr ⟨h, hplan.unique, fun column hc hc' => ?_⟩
    obtain ⟨c, hmem, rfl⟩ := List.mem_map.mp hc'
    exact hplan.fresh c hmem hc

theorem length_plan_le :
    layout.columns.length + (plan atLeast layout config records now).length
      ≤ max layout.columns.length config.maxColumns := by
  by_cases hclosed : config.maxPerService = 0 ∨ full layout config []
  · rw [plan_of_closed atLeast layout config records now hclosed]
    exact le_max_left _ _
  · obtain ⟨s', hplan⟩ := planned_plan atLeast layout config records now hclosed
    have hopen : ¬ config.maxColumns ≤ layout.columns.length + 0 := fun h => hclosed (.inr h)
    have hroom := hplan.room (by rw [List.length_nil]; omega)
    rw [hplan.out, List.nil_append] at hroom
    exact hroom.trans (le_max_right _ _)

theorem charged_plan_le (service : Text) :
    layout.chargedTo service
      + ((plan atLeast layout config records now).filter fun c => c.service == service).length
      ≤ max (layout.chargedTo service) config.maxPerService := by
  by_cases hclosed : config.maxPerService = 0 ∨ full layout config []
  · rw [plan_of_closed atLeast layout config records now hclosed]
    exact le_max_left _ _
  · obtain ⟨s', hplan⟩ := planned_plan atLeast layout config records now hclosed
    have hfew := hplan.few service
    omega

end

/-! ## Layouts -/

namespace TypedLayout

theorem perm_new {columns : List TypedColumn} (h : (columns.map TypedColumn.column).Nodup) :
    (new columns).columns.Perm columns := by
  have hperm := List.perm_insertionSort (fun a b : TypedColumn => a.column ≤ b.column) columns
  have hnodup : ((columns.insertionSort fun a b => a.column ≤ b.column).map
      TypedColumn.column).Nodup := (hperm.map _).nodup_iff.mpr h
  have hchain : (columns.insertionSort fun a b => a.column ≤ b.column).IsChain
      fun a b => a.column ≠ b.column := (List.pairwise_map.mp hnodup).isChain
  rw [new, List.destutter_of_isChain _ _ hchain]
  exact hperm

theorem sorted_new (columns : List TypedColumn) :
    (new columns).columns.Pairwise fun a b => a.column < b.column := by
  have htotal : Std.Total fun a b : TypedColumn => a.column ≤ b.column :=
    ⟨fun a b => le_total a.column b.column⟩
  have htrans : IsTrans TypedColumn fun a b => a.column ≤ b.column :=
    ⟨fun a b c hab hbc => le_trans hab hbc⟩
  have hle : (new columns).columns.Pairwise fun a b => a.column ≤ b.column :=
    (List.pairwise_insertionSort _ columns).sublist (List.destutter_sublist _ _)
  have hne : (new columns).columns.Pairwise fun a b => a.column ≠ b.column :=
    List.pairwise_map.mp (nodup_new columns)
  exact hle.imp₂ (fun a b hle hne => lt_of_le_of_ne hle hne) hne

/-- A layout is determined by its columns in any order. -/
theorem new_congr {columns columns' : List TypedColumn}
    (h : (columns.map TypedColumn.column).Nodup) (hperm : columns.Perm columns') :
    new columns = new columns' := by
  have h' : (columns'.map TypedColumn.column).Nodup := (hperm.map _).nodup_iff.mp h
  have hcolumns : (new columns).columns = (new columns').columns :=
    Lists.eq_of_pairwise_lt (sorted_new columns) (sorted_new columns') fun c => by
      rw [(perm_new h).mem_iff, (perm_new h').mem_iff, hperm.mem_iff]
  rw [new, new, TypedLayout.mk.injEq]
  exact hcolumns

theorem indexOf_eq_none {l : TypedLayout} {key : Text} :
    l.indexOf key = none ↔ ∀ c ∈ l.columns, c.key ≠ key := by
  rw [indexOf, Option.map_eq_none_iff, List.find?_eq_none]
  constructor
  · intro h c hc heq
    obtain ⟨i, hi⟩ := List.mem_iff_getElem?.mp hc
    refine h (c, i) (List.mem_reverse.mpr (List.mem_zipIdx_iff_getElem?.mpr hi)) ?_
    exact beq_iff_eq.mpr heq
  · intro h e he heq
    have hmem : e.1 ∈ l.columns :=
      List.mem_of_getElem? (List.mem_zipIdx_iff_getElem?.mp (List.mem_reverse.mp he))
    exact h e.1 hmem (beq_iff_eq.mp heq)

theorem perm_extend {l : TypedLayout} {promoted : List TypedColumn}
    (h : ((l.columns ++ promoted).map TypedColumn.column).Nodup) :
    (l.extend promoted).columns.Perm (l.columns ++ promoted) := perm_new h

theorem chargedTo_of_perm {l : TypedLayout} {columns : List TypedColumn}
    (h : l.columns.Perm columns) (service : Text) :
    l.chargedTo service = (columns.filter fun c => c.service == service).length :=
  (h.filter _).length_eq

end TypedLayout

/-! ## A plan is not taken further -/

section

variable {layout layout' : TypedLayout}

theorem judged_cons (seen : List Text) (a : Attr) (attrs : List Attr) :
    judged layout seen (a :: attrs) = if (layout.indexOf a.key).isSome ∨ a.key ∈ seen then
      judged layout (a.key :: seen) attrs else a :: judged layout (a.key :: seen) attrs := rfl

/-- Of a key that is not promoted the first attribute is judged. -/
theorem judged_filter {key : Text} (h : layout.indexOf key = none) (seen : List Text)
    (attrs : List Attr) :
    (judged layout seen attrs).filter (fun a => a.key == key)
      = if key ∈ seen then [] else (attrs.find? fun a => a.key == key).toList := by
  induction attrs generalizing seen with
  | nil =>
    show [] = _
    rw [List.find?_nil, Option.toList_none, ite_self]
  | cons a attrs ih =>
    rw [judged_cons]
    split
    · next hskip =>
      rw [ih]
      by_cases hkey : a.key = key
      · have hseen : key ∈ seen := by
          rcases hskip with hskip | hskip
          · rw [hkey, h] at hskip
            cases hskip
          · exact hkey ▸ hskip
        rw [if_pos hseen, if_pos (List.mem_cons_of_mem _ hseen)]
      · have hne : key ≠ a.key := fun heq => hkey heq.symm
        rw [List.find?_cons, beq_false_of_ne hkey]
        simp only [List.mem_cons, hne, false_or]
    · next hgo =>
      have hnotin : a.key ∉ seen := fun hmem => hgo (.inr hmem)
      rw [List.filter_cons, ih]
      by_cases hkey : a.key = key
      · rw [hkey] at hnotin
        simp [hkey, hnotin]
      · have hne : key ≠ a.key := fun heq => hkey heq.symm
        simp [hkey, hne]

theorem mem_judged {a : Attr} {seen : List Text} {attrs : List Attr}
    (h : a ∈ judged layout seen attrs) : layout.indexOf a.key = none := by
  induction attrs generalizing seen with
  | nil => cases h
  | cons b attrs ih =>
    rw [judged_cons] at h
    split at h
    · exact ih h
    · next hgo =>
      rcases List.mem_cons.mp h with rfl | h
      · exact Option.not_isSome_iff_eq_none.mp fun hsome => hgo (.inl hsome)
      · exact ih h

/-- The statistics of a key come from its own attributes. -/
theorem get_observed {key : Text} {attrs attrs' : List Attr} {keys keys' : List (Text × KeyStats)}
    (hkeys : Assoc.get keys key = Assoc.get keys' key)
    (h : attrs.filter (fun a => a.key == key) = attrs'.filter fun a => a.key == key) :
    Assoc.get (attrs.foldl observeAttr keys) key
      = Assoc.get (attrs'.foldl observeAttr keys') key := by
  -- both are what the attributes of the key alone make of it
  have hown : ∀ (attrs : List Attr) (keys keys' : List (Text × KeyStats)),
      Assoc.get keys key = Assoc.get keys' key →
      Assoc.get (attrs.foldl observeAttr keys) key
        = Assoc.get ((attrs.filter fun a => a.key == key).foldl observeAttr keys') key := by
    intro attrs
    induction attrs with
    | nil => exact fun _ _ h => h
    | cons a attrs ih =>
      intro keys keys' hget
      rw [List.foldl_cons, List.filter_cons]
      by_cases hkey : a.key = key
      · rw [if_pos (beq_iff_eq.mpr hkey), List.foldl_cons]
        apply ih
        rw [observeAttr, observeAttr, hkey, Assoc.get_insert, Assoc.get_insert, hget]
      · rw [if_neg (by rw [beq_iff_eq]; exact hkey)]
        apply ih
        rw [observeAttr, Assoc.get_insert, if_neg (fun heq => hkey heq.symm), hget]
  rw [hown attrs keys keys' hkeys, h]
  exact (hown attrs' keys' keys' rfl).symm

theorem nodup_observed (attrs : List Attr) {keys : List (Text × KeyStats)}
    (h : (keys.map Prod.fst).Nodup) : ((attrs.foldl observeAttr keys).map Prod.fst).Nodup := by
  induction attrs generalizing keys with
  | nil => exact h
  | cons a attrs ih => exact ih (Assoc.nodup_keys_insert h _ _)

theorem key_of_observed {attrs : List Attr} {keys : List (Text × KeyStats)} {key : Text}
    (h : key ∈ (attrs.foldl observeAttr keys).map Prod.fst) :
    key ∈ keys.map Prod.fst ∨ key ∈ attrs.map Attr.key := by
  induction attrs generalizing keys with
  | nil => exact .inl h
  | cons a attrs ih =>
    rw [List.map_cons, List.mem_cons]
    rcases ih h with h | h
    · rcases Assoc.mem_keys_insert.mp h with h | h
      · exact .inr (.inl h)
      · exact .inl h
    · exact .inr (.inr h)

variable (atLeast : ℕ → UInt64 → ℕ → Bool) (config : TypedColumnsConfig)
  (records : List (LogRecord × ℕ)) (stride : ℕ)

theorem get_statsOf {key : Text} (h : layout.indexOf key = none) (h' : layout'.indexOf key = none)
    (service : Text) :
    Assoc.get (statsOf layout records stride service) key
      = Assoc.get (statsOf layout' records stride service) key := by
  refine get_observed rfl ?_
  rw [List.filter_flatMap, List.filter_flatMap]
  congr 1
  ext1 ⟨r, row⟩
  exact (judged_filter h [] r.attributes).trans (judged_filter h' [] r.attributes).symm

theorem nodup_statsOf (service : Text) :
    ((statsOf layout records stride service).map Prod.fst).Nodup := by
  refine nodup_observed _ ?_
  rw [List.map_nil]
  exact List.nodup_nil

/-- What is a candidate with more columns was one with fewer. -/
theorem candidatesOf_subset (h : ∀ key, layout'.indexOf key = none → layout.indexOf key = none)
    (service : Text) :
    candidatesOf atLeast layout' config records stride service
      ⊆ candidatesOf atLeast layout config records stride service := by
  intro c hc
  obtain ⟨e, he, hcandidate⟩ := List.mem_filterMap.mp ((List.mem_insertionSort _).mp hc)
  have hkey : layout'.indexOf e.1 = none := by
    have hmem : e.1 ∈ (statsOf layout' records stride service).map Prod.fst :=
      List.mem_map_of_mem he
    obtain hnil | hattr := key_of_observed hmem
    · cases hnil
    · obtain ⟨a, ha, heq⟩ := List.mem_map.mp hattr
      obtain ⟨r, -, hjudged⟩ := List.mem_flatMap.mp ha
      exact heq ▸ mem_judged hjudged
  have hget : Assoc.get (statsOf layout records stride service) e.1 = some e.2 := by
    rw [get_statsOf records stride (h e.1 hkey) hkey service]
    exact (Assoc.get_eq_some_iff (nodup_statsOf _ _ _)).mpr he
  refine (List.mem_insertionSort _).mpr (List.mem_filterMap.mpr ⟨e, ?_, hcandidate⟩)
  exact Assoc.mem_of_get hget

end

section

variable (atLeast : ℕ → UInt64 → ℕ → Bool) {layout layout' : TypedLayout}
  (config : TypedColumnsConfig) (records : List LogRecord) (now now' : ℕ)

theorem plan_eq_nil (h : ∀ service ∈ servicesOf records,
    planService atLeast layout config records.zipIdx (strideOf records) now
      ⟨layout.columns.map TypedColumn.column, []⟩ service
      = ⟨layout.columns.map TypedColumn.column, []⟩) :
    plan atLeast layout config records now = [] := by
  have hfold : ∀ services : List Text, services ⊆ servicesOf records →
      services.foldl (planService atLeast layout config records.zipIdx (strideOf records) now)
        ⟨layout.columns.map TypedColumn.column, []⟩
        = ⟨layout.columns.map TypedColumn.column, []⟩ := by
    intro services
    induction services with
    | nil => exact fun _ => rfl
    | cons service services ih =>
      intro hsub
      rw [List.foldl_cons, h service (hsub List.mem_cons_self)]
      exact ih fun x hx => hsub (List.mem_cons_of_mem _ hx)
  by_cases hclosed : config.maxPerService = 0 ∨ full layout config []
  · exact plan_of_closed atLeast layout config records now hclosed
  · have hplan : plan atLeast layout config records now
        = ((servicesOf records).foldl (planService atLeast layout config records.zipIdx
          (strideOf records) now) ⟨layout.columns.map TypedColumn.column, []⟩).out := if_neg hclosed
    rw [hplan, hfold _ fun _ h => h]

/-- With what was planned, and whatever else was promoted since, nothing is planned of the same
records. -/
theorem plan_again {later : List TypedColumn} (hperm : layout'.columns.Perm
      (layout.columns ++ plan atLeast layout config records now ++ later)) :
    plan atLeast layout' config records now' = [] := by
  have hlength := hperm.length_eq
  rw [List.length_append, List.length_append] at hlength
  by_cases hclosed' : config.maxPerService = 0 ∨ full layout' config []
  · exact plan_of_closed atLeast layout' config records now' hclosed'
  have hopen' : ¬ config.maxColumns ≤ layout'.columns.length + 0 := fun h => hclosed' (.inr h)
  have hopen : ¬ (config.maxPerService = 0 ∨ full layout config []) := by
    intro h
    rcases h with hzero | hfull
    · exact hclosed' (.inl hzero)
    · rw [full, List.length_nil] at hfull
      omega
  obtain ⟨s', hplan⟩ := planned_plan atLeast layout config records now hopen
  have hout := hplan.out
  rw [List.nil_append] at hout
  -- the layout does not forget a key
  have hkeys : ∀ key, layout'.indexOf key = none → layout.indexOf key = none := by
    intro key hkey
    rw [TypedLayout.indexOf_eq_none] at hkey ⊢
    refine fun c hc => hkey c (hperm.mem_iff.mpr ?_)
    exact List.mem_append_left _ (List.mem_append_left _ hc)
  apply plan_eq_nil
  intro service hservice
  rw [planService_eq]
  split
  · rfl
  · next henough =>
    apply promote_eq_self
    rcases hplan.all service hservice with hfew | hbudget | hfull | hall
    · exact absurd hfew henough
    · left
      have hsame : layout.chargedTo service
        = (layout.columns.filter fun c => c.service == service).length := rfl
      rw [TypedLayout.chargedTo_of_perm hperm, List.filter_append, List.filter_append,
        List.length_append, List.length_append, hbudget]
      omega
    · rw [full, hout] at hfull
      omega
    · right
      intro c hc column hcolumn
      have htaken := hall c (candidatesOf_subset atLeast config _ _ hkeys service hc)
        column hcolumn
      rw [(hperm.map _).mem_iff, List.map_append, List.mem_append, List.map_append,
        List.mem_append]
      exact .inl ((hplan.taken column).mp htaken)

end

/-! ## Registrations -/

section

variable {rows columns : List TypedColumn}

/-- Of columns with the names of their keys, each name once, there is one with a name or a key. -/
theorem eq_of_collide (hnamed : ∀ c ∈ rows, Named c)
    (hunique : (rows.map TypedColumn.column).Nodup) {c c' : TypedColumn} (hc : c ∈ rows)
    (hc' : c' ∈ rows) (h : c.column = c'.column ∨ c.key = c'.key) : c = c' := by
  have hcolumn : c.column = c'.column := by
    rcases h with h | h
    · exact h
    · have hname := hnamed c hc
      have hname' := hnamed c' hc'
      rw [Named, h] at hname
      rw [Named, hname] at hname'
      exact Option.some_inj.mp hname'
  exact List.inj_on_of_nodup_map hunique hc hc' hcolumn

theorem registerColumn_of_mem {c : TypedColumn} (h : c ∈ rows) : registerColumn rows c = rows := by
  refine if_pos (List.any_eq_true.mpr ⟨c, h, ?_⟩)
  rw [beq_self_eq_true, Bool.true_or]

theorem register_of_subset (h : columns ⊆ rows) : register rows columns = rows := by
  induction columns with
  | nil => rfl
  | cons c columns ih =>
    rw [register, List.foldl_cons, registerColumn_of_mem (h List.mem_cons_self)]
    exact ih fun x hx => h (List.mem_cons_of_mem _ hx)

theorem registerColumn_of_fresh {c : TypedColumn} (hnamed : ∀ x ∈ rows, Named x) (hc : Named c)
    (hfresh : c.column ∉ rows.map TypedColumn.column) : registerColumn rows c = rows ++ [c] := by
  refine if_neg fun hany => ?_
  obtain ⟨x, hx, heq⟩ := List.any_eq_true.mp hany
  rw [Bool.or_eq_true, beq_iff_eq, beq_iff_eq] at heq
  have hcolumn : x.column = c.column := by
    rcases heq with heq | heq
    · exact heq
    · have hname := hnamed x hx
      rw [Named, heq] at hname
      rw [Named, hname] at hc
      exact Option.some_inj.mp hc
  exact hfresh (hcolumn ▸ List.mem_map_of_mem hx)

/-- Columns under names that are not in use are all registered. -/
theorem register_of_fresh (hnamed : ∀ c ∈ rows, Named c) (hcolumns : ∀ c ∈ columns, Named c)
    (hunique : ((rows ++ columns).map TypedColumn.column).Nodup) :
    register rows columns = rows ++ columns := by
  induction columns generalizing rows with
  | nil => exact (List.append_nil rows).symm
  | cons c columns ih =>
    have hassoc : rows ++ c :: columns = rows ++ [c] ++ columns := by
      rw [List.append_assoc, List.singleton_append]
    have hfresh : c.column ∉ rows.map TypedColumn.column := by
      rw [List.map_append, List.map_cons] at hunique
      intro hmem
      exact (List.nodup_append'.mp hunique).2.2 hmem List.mem_cons_self
    rw [register, List.foldl_cons,
      registerColumn_of_fresh hnamed (hcolumns c List.mem_cons_self) hfresh, hassoc]
    refine ih ?_ (fun x hx => hcolumns x (List.mem_cons_of_mem _ hx)) (hassoc ▸ hunique)
    intro x hx
    rcases List.mem_append.mp hx with hx | hx
    · exact hnamed x hx
    · exact List.mem_singleton.mp hx ▸ hcolumns c List.mem_cons_self

/-- Of columns out of one registry no two stand in each other's way. -/
theorem register_of_registry {acc : List TypedColumn} (hnamed : ∀ c ∈ rows, Named c)
    (hunique : (rows.map TypedColumn.column).Nodup) (hcolumns : columns ⊆ rows)
    (hacc : acc ⊆ rows) (hnodup : (acc.map TypedColumn.column).Nodup) :
    (∀ c, c ∈ register acc columns ↔ c ∈ acc ∨ c ∈ columns) ∧
      ((register acc columns).map TypedColumn.column).Nodup := by
  induction columns generalizing acc with
  | nil => exact ⟨fun c => by simp [register], hnodup⟩
  | cons c columns ih =>
    have hc : c ∈ rows := hcolumns List.mem_cons_self
    have hrest : columns ⊆ rows := fun x hx => hcolumns (List.mem_cons_of_mem _ hx)
    rw [register, List.foldl_cons]
    by_cases hmem : c ∈ acc
    · rw [registerColumn_of_mem hmem]
      obtain ⟨hiff, hunique'⟩ := ih hrest hacc hnodup
      refine ⟨fun x => (hiff x).trans ?_, hunique'⟩
      rw [List.mem_cons]
      constructor
      · tauto
      · rintro (hx | rfl | hx)
        · exact .inl hx
        · exact .inl hmem
        · exact .inr hx
    · have hfresh : c.column ∉ acc.map TypedColumn.column := by
        intro h
        obtain ⟨x, hx, heq⟩ := List.mem_map.mp h
        exact hmem (eq_of_collide hnamed hunique (hacc hx) hc (.inl heq) ▸ hx)
      rw [registerColumn_of_fresh (fun x hx => hnamed x (hacc hx)) (hnamed c hc) hfresh]
      have hacc' : acc ++ [c] ⊆ rows := by
        intro x hx
        rcases List.mem_append.mp hx with hx | hx
        · exact hacc hx
        · exact List.mem_singleton.mp hx ▸ hc
      have hnodup' : ((acc ++ [c]).map TypedColumn.column).Nodup := by
        rw [List.map_append, List.map_singleton]
        refine List.nodup_append'.mpr ⟨hnodup, List.nodup_singleton _, fun x hx hx' => ?_⟩
        exact hfresh (List.mem_singleton.mp hx' ▸ hx)
      obtain ⟨hiff, hunique'⟩ := ih hrest hacc' hnodup'
      refine ⟨fun x => (hiff x).trans ?_, hunique'⟩
      rw [List.mem_append, List.mem_singleton, List.mem_cons, or_assoc]

end

/-! ## The life of a store -/

open Schema Serde

/-- The columns of a file: those of the layout that are in its batch. -/
def declared (fl : FloatText) (records : List LogRecord) (layout : TypedLayout)
    (node : Option Text) : List TypedColumn :=
  layout.columns.filter fun c =>
    ((toRecordBatchFrom fl records layout node).columnByName c.column).isSome

/-- A store as its typed columns see it. -/
structure Registry where
  rows : List TypedColumn
  /-- The layout of the pass that is under way. -/
  layout : Option TypedLayout
  /-- The files with the columns that their footers declare. -/
  files : List (Text × List TypedColumn)

inductive Step where
  /-- A pass reads the layout. -/
  | load
  | promote (config : TypedColumnsConfig) (records : List LogRecord) (now : ℕ)
  | write (path : Text) (records : List LogRecord) (node : Option Text)
  | remove (path : Text)
  /-- The pass, or the process, ends. -/
  | halt
  /-- The catalog is rebuilt from the files, `lost` or not. -/
  | rebuild (lost : Bool)

namespace Registry

variable (atLeast : ℕ → UInt64 → ℕ → Bool) (fl : FloatText)

def start : Registry := ⟨[], none, []⟩

/-- What the footers declare, in the order of the paths. -/
def footers (w : Registry) : List TypedColumn :=
  (w.files.insertionSort fun a b => a.1 ≤ b.1).flatMap Prod.snd

def next (w : Registry) : Step → Registry
  | .load => { w with layout := some (.new w.rows) }
  | .promote config records now =>
    match w.layout with
    | none => w
    | some layout =>
      let promoted := plan atLeast layout config records now
      if promoted = [] then w
      else { w with
        rows := register w.rows promoted
        layout := some (layout.extend promoted) }
  | .write path records node =>
    match w.layout with
    | none => w
    | some layout =>
      { w with files := Assoc.insert w.files path (declared fl records layout node) }
  | .remove path => { w with files := Assoc.erase w.files path }
  | .halt => { w with layout := none }
  | .rebuild lost =>
    { w with
      rows := register (if lost then [] else w.rows) w.footers
      layout := none }

/-- What holds whatever is done. -/
structure Sound (w : Registry) : Prop where
  named : ∀ c ∈ w.rows, Named c
  unique : (w.rows.map TypedColumn.column).Nodup
  /-- The layout of a pass has what is registered. -/
  pass : ∀ layout, w.layout = some layout → layout = .new w.rows
  files : ∀ f ∈ w.files, ∀ c ∈ f.2, c ∈ w.rows

variable {w : Registry}

theorem Sound.footers (h : w.Sound) : w.footers ⊆ w.rows := by
  intro c hc
  obtain ⟨f, hf, hmem⟩ := List.mem_flatMap.mp hc
  exact h.files f ((List.mem_insertionSort _).mp hf) c hmem

/-- What a promotion does in a pass. -/
theorem Sound.promote (h : w.Sound) {layout : TypedLayout} (hlayout : w.layout = some layout)
    (config : TypedColumnsConfig) (records : List LogRecord) (now : ℕ) :
    w.next atLeast fl (.promote config records now) = { w with
        rows := w.rows ++ plan atLeast layout config records now
        layout := some (.new (w.rows ++ plan atLeast layout config records now)) } ∧
      ((w.rows ++ plan atLeast layout config records now).map TypedColumn.column).Nodup ∧
      layout.columns.Perm w.rows := by
  have hsame := h.pass layout hlayout
  have hperm : layout.columns.Perm w.rows := hsame ▸ TypedLayout.perm_new h.unique
  have hfresh := plan_fresh atLeast layout config records now
    ((hperm.map _).nodup_iff.mpr h.unique)
  have happend := hperm.append_right (plan atLeast layout config records now)
  have hunique := (happend.map TypedColumn.column).nodup_iff.mp hfresh
  refine ⟨?_, hunique, hperm⟩
  rw [next, hlayout]
  simp only
  split
  · next hnil =>
    rw [hnil, List.append_nil, ← hsame, ← hlayout]
  · rw [register_of_fresh h.named (named_plan atLeast layout config records now) hunique,
      TypedLayout.extend, TypedLayout.new_congr hfresh happend]

theorem sound_start : start.Sound := by
  constructor
  case unique => exact List.nodup_nil
  all_goals simp [start]

theorem Sound.next (h : w.Sound) (s : Step) : (w.next atLeast fl s).Sound := by
  cases s with
  | load =>
    refine { h with pass := ?_ }
    intro layout hlayout
    exact (Option.some_inj.mp hlayout).symm
  | promote config records now =>
    cases hlayout : w.layout with
    | none =>
      have hsame : w.next atLeast fl (.promote config records now) = w := by
        rw [Registry.next, hlayout]
      rw [hsame]
      exact h
    | some layout =>
      obtain ⟨heq, hunique, -⟩ := h.promote atLeast fl hlayout config records now
      rw [heq]
      constructor
      case named =>
        intro c hc
        rcases List.mem_append.mp hc with hc | hc
        · exact h.named c hc
        · exact named_plan atLeast layout config records now c hc
      case unique => exact hunique
      case pass => exact fun layout' hlayout' => (Option.some_inj.mp hlayout').symm
      case files => exact fun f hf c hc => List.mem_append_left _ (h.files f hf c hc)
  | write path records node =>
    cases hlayout : w.layout with
    | none =>
      have hsame : w.next atLeast fl (.write path records node) = w := by
        rw [Registry.next, hlayout]
      rw [hsame]
      exact h
    | some layout =>
      have heq : w.next atLeast fl (.write path records node) = { w with
          files := Assoc.insert w.files path (declared fl records layout node) } := by
        rw [Registry.next, hlayout]
      rw [heq]
      refine { h with files := ?_ }
      intro f hf c hc
      rcases List.mem_append.mp hf with hf | hf
      · exact h.files f (List.mem_of_mem_filter hf) c hc
      · rw [List.mem_singleton.mp hf] at hc
        have hmem := List.mem_of_mem_filter hc
        rw [h.pass layout hlayout] at hmem
        exact TypedLayout.mem_new hmem
  | remove path =>
    exact { h with files := fun f hf => h.files f (List.mem_of_mem_filter hf) }
  | halt => exact { h with pass := fun layout hlayout => by cases hlayout }
  | rebuild lost =>
    have hacc : (if lost then [] else w.rows) ⊆ w.rows := by
      split
      · exact List.nil_subset _
      · exact fun _ h => h
    have hnodup : ((if lost then [] else w.rows).map TypedColumn.column).Nodup := by
      split
      · exact List.nodup_nil
      · exact h.unique
    obtain ⟨hiff, hunique⟩ := register_of_registry h.named h.unique h.footers hacc hnodup
    constructor
    case named =>
      intro c hc
      exact h.named c (((hiff c).mp hc).elim (fun hc => hacc hc) fun hc => h.footers hc)
    case unique => exact hunique
    case pass => exact fun layout hlayout => by cases hlayout
    case files =>
      intro f hf c hc
      refine (hiff c).mpr (.inr (List.mem_flatMap.mpr ⟨f, ?_, hc⟩))
      exact (List.mem_insertionSort _).mpr hf

theorem sound_run (steps : List Step) : (Runs.run (next atLeast fl) start steps).Sound :=
  Runs.run_invariant (fun _ s h => h.next atLeast fl s) sound_start steps

/-! ## Runs -/

/-- What is registered stays, at its place, until the catalog is lost. -/
theorem Sound.grows (h : w.Sound) {s : Step} (hs : s ≠ .rebuild true) :
    w.rows <+: (w.next atLeast fl s).rows := by
  cases s with
  | load => exact List.prefix_refl _
  | promote config records now =>
    cases hlayout : w.layout with
    | none =>
      rw [Registry.next, hlayout]
    | some layout =>
      rw [(h.promote atLeast fl hlayout config records now).1]
      exact List.prefix_append _ _
  | write path records node =>
    cases hlayout : w.layout <;> rw [Registry.next, hlayout]
  | remove path => exact List.prefix_refl _
  | halt => exact List.prefix_refl _
  | rebuild lost =>
    cases lost with
    | true => exact absurd rfl hs
    | false =>
      have hsame : register w.rows w.footers = w.rows := register_of_subset h.footers
      show w.rows <+: register w.rows w.footers
      rw [hsame]

theorem Sound.grows_run (h : w.Sound) {steps : List Step} (hs : ∀ s ∈ steps, s ≠ .rebuild true) :
    w.rows <+: (Runs.run (Registry.next atLeast fl) w steps).rows := by
  induction steps generalizing w with
  | nil => exact List.prefix_refl _
  | cons s steps ih =>
    have hfirst := h.grows atLeast fl (hs s List.mem_cons_self)
    exact hfirst.trans (ih (h.next atLeast fl s) fun x hx => hs x (List.mem_cons_of_mem _ hx))

/-- A name or a key that two footers declare is the same column in both, of one type, and it is
registered. -/
def FilesAgree (w : Registry) : Prop :=
  ∀ f ∈ w.files, ∀ c ∈ f.2, c ∈ w.rows ∧
    ∀ f' ∈ w.files, ∀ c' ∈ f'.2, c.column = c'.column ∨ c.key = c'.key → c = c'

/-- All files of the store agree on their columns, whatever was written and removed, however passes
were cut off, and also if the catalog was lost and rebuilt. -/
theorem files_agree (steps : List Step) :
    (Runs.run (next atLeast fl) start steps).FilesAgree := by
  intro f hf c hc
  have hsound := sound_run atLeast fl steps
  have hmem := hsound.files f hf c hc
  refine ⟨hmem, fun f' hf' c' hc' hcollide => ?_⟩
  exact eq_of_collide hsound.named hsound.unique hmem (hsound.files f' hf' c' hc') hcollide

/-- As long as the catalog is not lost, the registry only grows at its end: no column is forgotten,
moved or given another type. -/
theorem registered_stays (before after : List Step) (h : ∀ s ∈ after, s ≠ .rebuild true) :
    (Runs.run (next atLeast fl) start before).rows
      <+: (Runs.run (next atLeast fl) start (before ++ after)).rows := by
  rw [Runs.run_append]
  exact (sound_run atLeast fl before).grows_run atLeast fl h

/-- Every key of one record is worth a column. -/
def ratioConfig : TypedColumnsConfig :=
  ⟨16, 128, 1, 0x3FF0000000000000, 0x3FF0000000000000, 256⟩

/-- A pass that is cut off before its file is written. -/
def ratioPass : List Step :=
  [.load, .promote ratioConfig [ratioRecord (.f64 0x3FE0000000000000)] 0, .halt]

theorem registered_stays_ratio :
    (Runs.run (next (fun count _ n => decide (n ≤ count)) zeroText) start ratioPass).rows
        = [⟨"attr_ratio".toList, "ratio".toList, .float64, [], 0⟩] ∧
      (Runs.run (next (fun count _ n => decide (n ≤ count)) zeroText) start ratioPass).rows
        <+: (Runs.run (next (fun count _ n => decide (n ≤ count)) zeroText) start
          (ratioPass ++ [.rebuild false, .load,
            .promote ratioConfig [ratioRecord (.i64 2)] 1])).rows := by
  have hrows : (Runs.run (next (fun count _ n => decide (n ≤ count)) zeroText) start
      ratioPass).rows = [⟨"attr_ratio".toList, "ratio".toList, .float64, [], 0⟩] := by
    decide +kernel
  have hkept : ∀ s ∈ [Step.rebuild false, .load,
      .promote ratioConfig [ratioRecord (.i64 2)] 1], s ≠ .rebuild true := by simp
  exact ⟨hrows, registered_stays _ zeroText ratioPass _ hkept⟩

/-- The limits of the configuration, if none in the run is higher. -/
def within (columns perService : ℕ) : Step → Prop
  | .promote config _ _ => config.maxColumns ≤ columns ∧ config.maxPerService ≤ perService
  | _ => True

/-- The registry keeps to the limits. -/
def Limited (columns perService : ℕ) (w : Registry) : Prop :=
  w.rows.length ≤ columns ∧
    ∀ service, (w.rows.filter fun c => c.service == service).length ≤ perService

theorem Sound.limited (h : w.Sound) {columns perService : ℕ} (hw : w.Limited columns perService)
    {s : Step} (hs : within columns perService s) :
    (w.next atLeast fl s).Limited columns perService := by
  cases s with
  | load => exact hw
  | promote config records now =>
    cases hlayout : w.layout with
    | none =>
      rw [Registry.next, hlayout]
      exact hw
    | some layout =>
      obtain ⟨heq, -, hperm⟩ := h.promote atLeast fl hlayout config records now
      rw [heq]
      have hlength := length_plan_le atLeast layout config records now
      rw [hperm.length_eq] at hlength
      refine ⟨?_, fun service => ?_⟩
      · rw [List.length_append]
        exact hlength.trans (max_le hw.1 hs.1)
      · have hcharged := charged_plan_le atLeast layout config records now service
        rw [TypedLayout.chargedTo_of_perm hperm] at hcharged
        rw [List.filter_append, List.length_append]
        exact hcharged.trans (max_le (hw.2 service) hs.2)
  | write path records node =>
    cases hlayout : w.layout <;> rw [Registry.next, hlayout] <;> exact hw
  | remove path => exact hw
  | halt => exact hw
  | rebuild lost =>
    have hacc : (if lost then [] else w.rows) ⊆ w.rows := by
      split
      · exact List.nil_subset _
      · exact fun _ h => h
    have hnodup : ((if lost then [] else w.rows).map TypedColumn.column).Nodup := by
      split
      · exact List.nodup_nil
      · exact h.unique
    obtain ⟨hiff, hunique⟩ := register_of_registry h.named h.unique h.footers hacc hnodup
    -- the rebuilt registry is a part of the one before
    have hsub : (register (if lost then [] else w.rows) w.footers).Subperm w.rows := by
      refine List.subperm_of_subset hunique.of_map fun c hc => ?_
      exact ((hiff c).mp hc).elim (fun hc => hacc hc) fun hc => h.footers hc
    exact ⟨hsub.length_le.trans hw.1,
      fun service => (hsub.filter _).length_le.trans (hw.2 service)⟩

/-- Whatever is done, there are never more columns than the highest `max_columns` of the run, and no
service is charged for more than the highest `max_per_service`. -/
theorem columns_bounded (columns perService : ℕ) (steps : List Step)
    (h : ∀ s ∈ steps, within columns perService s) :
    (Runs.run (next atLeast fl) start steps).rows.length ≤ columns ∧
      ∀ service, ((Runs.run (next atLeast fl) start steps).rows.filter
        fun c => c.service == service).length ≤ perService := by
  have hrun : ∀ (steps : List Step) (w : Registry), w.Sound → w.Limited columns perService →
      (∀ s ∈ steps, within columns perService s) →
      (Runs.run (next atLeast fl) w steps).Limited columns perService := by
    intro steps
    induction steps with
    | nil => exact fun _ _ hw _ => hw
    | cons s steps ih =>
      intro w hsound hw hs
      exact ih _ (hsound.next atLeast fl s)
        (hsound.limited atLeast fl hw (hs s List.mem_cons_self))
        fun x hx => hs x (List.mem_cons_of_mem _ hx)
  exact hrun steps start sound_start ⟨Nat.zero_le _, fun _ => Nat.zero_le _⟩ h

theorem columns_bounded_ratio :
    (Runs.run (next (fun count _ n => decide (n ≤ count)) zeroText) start ratioPass).rows.length
        ≤ 128 ∧
      ∀ service, ((Runs.run (next (fun count _ n => decide (n ≤ count)) zeroText) start
        ratioPass).rows.filter fun c => c.service == service).length ≤ 16 := by
  have hwithin : ∀ s ∈ ratioPass, within 128 16 s := by
    simp [ratioPass, within, ratioConfig]
  exact columns_bounded _ zeroText 128 16 ratioPass hwithin

/-- Records that were planned once are not planned further: whatever passes did since, and wherever
they were cut off, promoting for the same records again changes nothing, unless the catalog was
lost. -/
theorem promoted_once (before since : List Step) (config : TypedColumnsConfig)
    (records : List LogRecord) (now now' : ℕ)
    (hpass : (Runs.run (next atLeast fl) start before).layout.isSome)
    (hsince : ∀ s ∈ since, s ≠ .rebuild true) :
    Runs.run (next atLeast fl) start
        (before ++ .promote config records now :: since ++ [.promote config records now'])
      = Runs.run (next atLeast fl) start (before ++ .promote config records now :: since) := by
  rw [Runs.run_concat, Runs.run_append, Runs.run_cons]
  have hsound := sound_run atLeast fl before
  obtain ⟨layout, hlayout⟩ := Option.isSome_iff_exists.mp hpass
  obtain ⟨heq, -, hperm⟩ := hsound.promote atLeast fl hlayout config records now
  have hsound' := hsound.next atLeast fl (.promote config records now)
  obtain ⟨later, hlater⟩ := hsound'.grows_run atLeast fl hsince
  rw [heq] at hlater
  have hlast : (Runs.run (next atLeast fl) ((Runs.run (next atLeast fl) start before).next
      atLeast fl (.promote config records now)) since).Sound :=
    Runs.run_invariant (fun _ s h => h.next atLeast fl s) hsound' since
  cases hlayout' : (Runs.run (next atLeast fl) ((Runs.run (next atLeast fl) start before).next
      atLeast fl (.promote config records now)) since).layout with
  | none => rw [next, hlayout']
  | some layout' =>
    -- the layout has what was registered since
    have hperm' : layout'.columns.Perm
        (layout.columns ++ plan atLeast layout config records now ++ later) := by
      rw [hlast.pass layout' hlayout']
      refine (TypedLayout.perm_new hlast.unique).trans ?_
      rw [heq, ← hlater]
      exact (hperm.symm.append_right _).append_right _
    rw [next, hlayout']
    simp only
    rw [if_pos (plan_again atLeast config records now now' hperm')]

theorem promoted_once_ratio :
    Runs.run (next (fun count _ n => decide (n ≤ count)) zeroText) start
        ([.load] ++ .promote ratioConfig [ratioRecord (.f64 0x3FE0000000000000)] 0 ::
          [.halt, .load] ++ [.promote ratioConfig [ratioRecord (.f64 0x3FE0000000000000)] 1])
      = Runs.run (next (fun count _ n => decide (n ≤ count)) zeroText) start
        ([.load] ++ .promote ratioConfig [ratioRecord (.f64 0x3FE0000000000000)] 0 ::
          [.halt, .load]) := by
  have hsince : ∀ s ∈ [Step.halt, .load], s ≠ .rebuild true := by simp
  exact promoted_once _ zeroText [.load] [.halt, .load] ratioConfig _ 0 1 rfl hsince

end Registry

end LogLess.Typed
