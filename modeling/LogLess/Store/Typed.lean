import LogLess.Lib.Assoc
import LogLess.Lib.Float64
import LogLess.Lib.Lists
import LogLess.Lib.Utf8
import LogLess.Store.Timestamp
import Mathlib.Data.Char
import Mathlib.Data.List.Destutter
import Mathlib.Data.List.Lex
import Mathlib.Data.List.Sort

/-!
# Typed attribute columns

`plan` promotes keys that a service sets often and with one type to columns of their own. The
registry keeps the promotions and `TypedLayout` is the snapshot a writer applies. `conform`
says which values a column takes.

How a count compares with a share of another is a parameter: the source computes it on floats.
-/

namespace LogLess.Typed

inductive ColumnType where
  | int64
  | float64
  | bool
  | string
  | timestamp
deriving DecidableEq

def ColumnType.asStr : ColumnType → Text
  | .int64 => "int64".toList
  | .float64 => "float64".toList
  | .bool => "bool".toList
  | .string => "string".toList
  | .timestamp => "timestamp".toList

def ColumnType.parse (text : Text) : Option ColumnType :=
  [.int64, .float64, .bool, .string, .timestamp].find? fun ty => ty.asStr == text

/-- One registered typed column. -/
structure TypedColumn where
  column : Text
  key : Text
  ty : ColumnType
  /-- The service whose budget is charged. -/
  service : Text
  promotedAt : ℕ
deriving DecidableEq

/-- The columns a writer applies, by name. -/
structure TypedLayout where
  columns : List TypedColumn
deriving DecidableEq

namespace TypedLayout

def new (columns : List TypedColumn) : TypedLayout :=
  ⟨(columns.insertionSort fun a b => a.column ≤ b.column).destutter
    fun a b => a.column ≠ b.column⟩

/-- The column of a key: the last one, if several have it. -/
def indexOf (l : TypedLayout) (key : Text) : Option ℕ :=
  (l.columns.zipIdx.reverse.find? fun e => e.1.key == key).map Prod.snd

def chargedTo (l : TypedLayout) (service : Text) : ℕ :=
  (l.columns.filter fun c => c.service == service).length

def extend (l : TypedLayout) (promoted : List TypedColumn) : TypedLayout := new (l.columns ++ promoted)

end TypedLayout

/-- `[typed_columns]` in the configuration. The two shares are floats, kept as their bits. -/
structure TypedColumnsConfig where
  maxPerService : ℕ
  maxColumns : ℕ
  minRows : ℕ
  minPresence : UInt64
  minTypeShare : UInt64
  maxStringBytes : ℕ

def columnPrefix : Text := "attr_".toList

def maxKeyBytes : ℕ := 64

def isAsciiLower (b : UInt8) : Bool := 0x61 ≤ b && b ≤ 0x7A
def isAsciiUpper (b : UInt8) : Bool := 0x41 ≤ b && b ≤ 0x5A
def isAsciiDigit (b : UInt8) : Bool := 0x30 ≤ b && b ≤ 0x39

def columnChar (b : UInt8) : Char :=
  let c := if isAsciiUpper b then b + 0x20 else b
  if isAsciiLower c || isAsciiDigit c || c == 0x5F then Char.ofNat c.toNat else '_'

/-- The name of the column of a key, if the key may have one. -/
def columnName (key : Text) : Option Text :=
  let bytes := Utf8.encode key
  if bytes = [] ∨ maxKeyBytes < bytes.length ∨
      bytes.any (fun b => isAsciiLower b || isAsciiUpper b || isAsciiDigit b) = false then none
  else some (columnPrefix ++ bytes.map columnChar)

/-! ## Values of a column -/

/-- A value converted for a typed column. -/
inductive Cell where
  | int (v : ℤ)
  | float (bits : UInt64)
  | bool (b : Bool)
  | str (s : Text)
  | timestamp (nanos : ℤ)
deriving DecidableEq

/-- `F64_EXACT_INT`. -/
def f64ExactInt : ℕ := 2 ^ 53

/-- The value as a column of this type holds it. -/
def conform (value : AttrValue) (ty : ColumnType) : Option Cell :=
  match ty, value with
  | .int64, .i64 v => some (.int v)
  | .float64, .f64 bits => some (.float bits)
  | .float64, .i64 v => if v.natAbs ≤ f64ExactInt then some (.float (Float64.ofInt v)) else none
  | .bool, .bool b => some (.bool b)
  | .string, .str s => some (.str s)
  | .timestamp, .str s => (parseCanonicalTimestamp s).map .timestamp
  | _, _ => none

/-! ## Planning promotions -/

structure KeyStats where
  present : ℕ
  ints : ℕ
  floats : ℕ
  bools : ℕ
  timestamps : ℕ
  strings : ℕ
  stringBytes : ℕ

namespace KeyStats

def observe (s : KeyStats) (value : AttrValue) : KeyStats :=
  let s := { s with present := s.present + 1 }
  match value with
  | .i64 _ => { s with ints := s.ints + 1 }
  | .f64 _ => { s with floats := s.floats + 1 }
  | .bool _ => { s with bools := s.bools + 1 }
  | .str t =>
    { s with
      strings := s.strings + 1
      stringBytes := s.stringBytes + t.len
      timestamps := s.timestamps + if (parseCanonicalTimestamp t).isSome then 1 else 0 }

/-- The one type that enough of the values conform to. -/
def stableType (atLeast : ℕ → UInt64 → ℕ → Bool) (s : KeyStats) (share : UInt64)
    (maxStringBytes : ℕ) : Option ColumnType :=
  let enough := fun count => atLeast count share s.present
  if 0 < s.floats ∧ enough (s.ints + s.floats) then some .float64
  else if enough s.ints then some .int64
  else if enough s.bools then some .bool
  else if enough s.timestamps then some .timestamp
  else if enough s.strings ∧ s.stringBytes ≤ maxStringBytes * s.strings then some .string
  else none

end KeyStats

def sampleRows : ℕ := 32 * 1024

section

variable (atLeast : ℕ → UInt64 → ℕ → Bool) (layout : TypedLayout) (config : TypedColumnsConfig)

/-- The attributes of a record that are judged: the first of its key, if not promoted yet. -/
def judged : List Text → List Attr → List Attr
  | _, [] => []
  | seen, a :: rest =>
    if (layout.indexOf a.key).isSome ∨ a.key ∈ seen then judged (a.key :: seen) rest
    else a :: judged (a.key :: seen) rest

def observeAttr (keys : List (Text × KeyStats)) (a : Attr) : List (Text × KeyStats) :=
  let stats := (Assoc.get keys a.key).getD ⟨0, 0, 0, 0, 0, 0, 0⟩
  Assoc.insert keys a.key (stats.observe a.value)

structure PlanState where
  taken : List Text
  out : List TypedColumn

/-- The promotions of one service: the best candidates until its budget or the columns of the
store run out. -/
def promote (now : ℕ) (service : Text) :
    ℕ → List (Text × KeyStats × ColumnType) → PlanState → PlanState
  | _, [], s => s
  | budget, (key, _, ty) :: candidates, s =>
    if budget = 0 ∨ config.maxColumns ≤ layout.columns.length + s.out.length then s
    else
      match columnName key with
      | none => promote now service budget candidates s
      | some column =>
        if s.taken.contains column then promote now service budget candidates s
        else
          promote now service (budget - 1) candidates
            { taken := column :: s.taken, out := s.out ++ [⟨column, key, ty, service, now⟩] }

/-- Most present first, then by key. -/
def candidateLe (a b : Text × KeyStats × ColumnType) : Bool :=
  b.2.1.present < a.2.1.present ∨ (a.2.1.present = b.2.1.present ∧ a.1 ≤ b.1)

def planService (records : List (LogRecord × ℕ)) (stride now : ℕ) (s : PlanState)
    (service : Text) : PlanState :=
  let mine := records.filter fun (r, _) => r.service.getD [] == service
  let sampled := mine.filter fun (_, row) => row % stride == 0
  let keys := (sampled.flatMap fun (r, _) => judged layout [] r.attributes).foldl observeAttr []
  if mine.length < config.minRows ∨ sampled.length = 0 then s
  else
    let candidates := keys.filterMap fun (key, stats) =>
      if atLeast stats.present config.minPresence sampled.length then
        (stats.stableType atLeast config.minTypeShare config.maxStringBytes).map
          fun ty => (key, stats, ty)
      else none
    promote layout config now service (config.maxPerService - layout.chargedTo service)
      (candidates.insertionSort fun a b => candidateLe a b) s

/-- Which keys of the records to promote. -/
def plan (records : List LogRecord) (now : ℕ) : List TypedColumn :=
  if config.maxPerService = 0 ∨ config.maxColumns ≤ layout.columns.length then []
  else
    let stride := max (records.length / sampleRows) 1
    let services := (records.map fun r => r.service.getD []).dedup.insertionSort (· ≤ ·)
    (services.foldl (planService atLeast layout config records.zipIdx stride now)
      ⟨layout.columns.map TypedColumn.column, []⟩).out

end

/-! ## The registry -/

/-- `INSERT OR IGNORE`: a column or a key that is there already stays as it is. -/
def registerColumn (rows : List TypedColumn) (c : TypedColumn) : List TypedColumn :=
  if rows.any fun x => x.column == c.column || x.key == c.key then rows else rows ++ [c]

/-- `register_typed_columns`. -/
def register (rows columns : List TypedColumn) : List TypedColumn :=
  columns.foldl registerColumn rows

/-- Registries and layouts there can be: a batch is planned and registered, the registry is
loaded, or columns of files of any such layout are registered when the catalog is rebuilt. -/
inductive Reachable : List TypedColumn → TypedLayout → Prop where
  | start : Reachable [] (.new [])
  | plan {rows layout} (atLeast : ℕ → UInt64 → ℕ → Bool) (config : TypedColumnsConfig)
      (records : List LogRecord) (now : ℕ) (h : Reachable rows layout) :
      Reachable (register rows (Typed.plan atLeast layout config records now))
        (layout.extend (Typed.plan atLeast layout config records now))
  | load {rows layout} (h : Reachable rows layout) : Reachable rows (.new rows)
  | rebuild {rows layout rows' layout'} (h : Reachable rows layout) (h' : Reachable rows' layout')
      {columns : List TypedColumn} (hc : columns ⊆ layout'.columns) :
      Reachable (register rows columns) layout

/-! ## What holds of a reachable layout -/

/-- The column has the name of its key. -/
def Named (c : TypedColumn) : Prop := columnName c.key = some c.column

theorem named_promote (layout : TypedLayout) (config : TypedColumnsConfig) (now : ℕ)
    (service : Text) (candidates : List (Text × KeyStats × ColumnType)) (budget : ℕ)
    {s : PlanState} (h : ∀ c ∈ s.out, Named c) :
    ∀ c ∈ (promote layout config now service budget candidates s).out, Named c := by
  induction candidates generalizing budget s with
  | nil => simpa [promote] using h
  | cons candidate candidates ih =>
    obtain ⟨key, stats, ty⟩ := candidate
    rw [promote]
    split
    · exact h
    · split
      · exact ih budget h
      · next column hname =>
        split
        · exact ih budget h
        · refine ih (budget - 1) fun c hc => ?_
          rcases List.mem_append.mp hc with hc | hc
          · exact h c hc
          · rw [List.mem_singleton.mp hc]
            exact hname

theorem named_plan (atLeast : ℕ → UInt64 → ℕ → Bool) (layout : TypedLayout)
    (config : TypedColumnsConfig) (records : List LogRecord) (now : ℕ) :
    ∀ c ∈ plan atLeast layout config records now, Named c := by
  have hfold : ∀ (stride : ℕ) (services : List Text) (s : PlanState),
      (∀ c ∈ s.out, Named c) → ∀ c ∈ (services.foldl
        (planService atLeast layout config records.zipIdx stride now) s).out, Named c := by
    intro stride services
    induction services with
    | nil => exact fun s hs => hs
    | cons service services ih =>
      intro s hs
      refine ih _ ?_
      simp only [planService]
      split
      · exact hs
      · exact named_promote layout config now service _ _ hs
  unfold plan
  split
  · simp
  · exact hfold _ _ _ (by simp)

theorem mem_register {rows columns : List TypedColumn} {c : TypedColumn}
    (h : c ∈ register rows columns) : c ∈ rows ∨ c ∈ columns := by
  induction columns generalizing rows with
  | nil => exact .inl h
  | cons x columns ih =>
    rw [register, List.foldl_cons] at h
    rcases ih h with h | h
    · unfold registerColumn at h
      split at h
      · exact .inl h
      · rcases List.mem_append.mp h with h | h
        · exact .inl h
        · exact .inr (by rw [List.mem_singleton.mp h]; exact List.mem_cons_self)
    · exact .inr (List.mem_cons_of_mem x h)

namespace TypedLayout

theorem mem_new {columns : List TypedColumn} {c : TypedColumn} (h : c ∈ (new columns).columns) :
    c ∈ columns :=
  (List.perm_insertionSort _ columns).subset ((List.destutter_sublist _ _).subset h)

/-- A layout has every column once. -/
theorem nodup_new (columns : List TypedColumn) :
    ((new columns).columns.map TypedColumn.column).Nodup := by
  have hsorted : (new columns).columns.Pairwise fun a b => a.column ≤ b.column := by
    refine List.Pairwise.sublist (List.destutter_sublist _ _) ?_
    have htotal : Std.Total fun a b : TypedColumn => a.column ≤ b.column :=
      ⟨fun a b => le_total a.column b.column⟩
    have htrans : IsTrans TypedColumn fun a b => a.column ≤ b.column :=
      ⟨fun a b c hab hbc => le_trans hab hbc⟩
    exact List.pairwise_insertionSort _ columns
  exact Lists.nodup_of_isChain_ne (fun a b hab hba => le_antisymm hab hba) hsorted
    (List.isChain_destutter _ _)

/-- An index is that of a column with the key. -/
theorem getElem?_of_indexOf {l : TypedLayout} {key : Text} {i : ℕ} (h : l.indexOf key = some i) :
    ∃ c, l.columns[i]? = some c ∧ c.key = key := by
  obtain ⟨⟨c, j⟩, hfind, rfl⟩ := Option.map_eq_some_iff.mp h
  have hmem := List.mem_of_find?_eq_some hfind
  rw [List.mem_reverse, List.mem_zipIdx_iff_getElem?] at hmem
  exact ⟨c, hmem, by simpa using List.find?_some hfind⟩

end TypedLayout

/-- The columns of a reachable layout have the names of their keys, each name once. -/
theorem Reachable.sound {rows : List TypedColumn} {layout : TypedLayout}
    (h : Reachable rows layout) :
    (∀ c ∈ rows, Named c) ∧ (∀ c ∈ layout.columns, Named c) ∧
      (layout.columns.map TypedColumn.column).Nodup := by
  induction h with
  | start => exact ⟨by simp, fun c hc => by simpa using TypedLayout.mem_new hc,
      TypedLayout.nodup_new _⟩
  | @plan rows layout atLeast config records now _ ih =>
    obtain ⟨hrows, hcols, -⟩ := ih
    have hplan := named_plan atLeast layout config records now
    refine ⟨fun c hc => ?_, fun c hc => ?_, TypedLayout.nodup_new _⟩
    · exact (mem_register hc).elim (hrows c) (hplan c)
    · exact (List.mem_append.mp (TypedLayout.mem_new hc)).elim (hcols c) (hplan c)
  | load _ ih => exact ⟨ih.1, fun c hc => ih.1 c (TypedLayout.mem_new hc), TypedLayout.nodup_new _⟩
  | rebuild _ _ hc ih ih' =>
    refine ⟨fun c hmem => ?_, ih.2⟩
    exact (mem_register hmem).elim (ih.1 c) fun hcol => ih'.2.1 c (hc hcol)

end LogLess.Typed
