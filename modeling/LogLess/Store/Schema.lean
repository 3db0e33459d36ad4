import LogLess.Peer.Provenance
import LogLess.Serde
import LogLess.Store.Typed

/-!
# Rows as columns

`toRecordBatchFrom` writes records as a record batch: the base columns, a typed column for
every promoted key with a value, and the JSON of the attributes that no column takes.
`fromRecordBatch` reads a batch back. An array is the list of its values, null where there is
none.
-/

namespace LogLess.Schema

open Typed Serde Json

inductive ArrowArray where
  | timestamps (rows : List (Option ℤ))
  | uint8s (rows : List (Option UInt8))
  | uint64s (rows : List (Option ℕ))
  | strings (rows : List (Option Text))
  | binaries (rows : List (Option (List UInt8)))
  | int64s (rows : List (Option ℤ))
  | float64s (rows : List (Option UInt64))
  | booleans (rows : List (Option Bool))
  | dictionary (rows : List (Option Text))

structure Field where
  name : Text
  /-- Key and type of a typed column, from the metadata. -/
  attr : Option (Text × Text)
  array : ArrowArray

structure RecordBatch where
  numRows : ℕ
  fields : List Field

def RecordBatch.columnByName (b : RecordBatch) (name : Text) : Option ArrowArray :=
  (b.fields.find? fun f => f.name == name).map Field.array

/-! ## The order of the rows -/

def compareOption {α : Type} (cmp : α → α → Ordering) : Option α → Option α → Ordering
  | none, none => .eq
  | none, some _ => .lt
  | some _, none => .gt
  | some a, some b => cmp a b

def recordLe (a b : LogRecord) : Bool :=
  ((compareOption compare a.service b.service).then <|
    (compareOption (fun x y => compare x.val y.val) a.traceId b.traceId).then <|
    (compare a.timestampUnixNano b.timestampUnixNano).then <|
    compare a.eventId.bytes b.eventId.bytes).isLE

/-- `sort_records`. -/
def sortRecords (records : List LogRecord) : List LogRecord :=
  records.insertionSort fun a b => recordLe a b

/-! ## Writing -/

/-- Values bound for one typed column, each with its row. -/
abbrev Sparse := List (ℕ × Cell)

structure RowState where
  used : List ℕ
  cells : List Sparse
  rest : List Attr

/-- The column that takes an attribute, if none of the row's earlier ones is in it. -/
def columnFor (layout : TypedLayout) (used : List ℕ) (a : Attr) : Option (ℕ × Cell) := do
  let i ← (layout.indexOf a.key).filter fun i => !used.contains i
  let c ← layout.columns[i]?
  let cell ← conform a.value c.ty
  return (i, cell)

def placeAttr (layout : TypedLayout) (row : ℕ) (s : RowState) (a : Attr) : RowState :=
  match columnFor layout s.used a with
  | some (i, cell) =>
    { s with used := s.used ++ [i], cells := s.cells.modify i (· ++ [(row, cell)]) }
  | none => { s with rest := s.rest ++ [a] }

structure BuildState where
  cells : List Sparse
  json : List (Option Text)

def attrsToString (fl : FloatText) (as : List Attr) : Text := render (.arr (as.map (attrToValue fl)))

def buildRow (fl : FloatText) (layout : TypedLayout) (s : BuildState) (rec : LogRecord × ℕ) :
    BuildState :=
  let row := rec.1.attributes.foldl (placeAttr layout rec.2) ⟨[], s.cells, []⟩
  { cells := row.cells
    json := s.json ++ [if row.rest = [] then none else some (attrsToString fl row.rest)] }

/-- A builder of `n` rows: nulls up to the row of each cell, and then its value. -/
def fillColumn {α : Type} (n : ℕ) (value : Cell → Option α) (cells : Sparse) : List (Option α) :=
  let filled := cells.foldl
    (fun (s : List (Option α) × ℕ) (c : ℕ × Cell) =>
      (s.1 ++ List.replicate (c.1 - s.2) none ++ [value c.2], c.1 + 1)) ([], 0)
  filled.1 ++ List.replicate (n - filled.2) none

def Cell.int? : Cell → Option ℤ
  | .int v => some v
  | _ => none

def Cell.float? : Cell → Option UInt64
  | .float bits => some bits
  | _ => none

def Cell.bool? : Cell → Option Bool
  | .bool b => some b
  | _ => none

def Cell.str? : Cell → Option Text
  | .str s => some s
  | _ => none

def Cell.timestamp? : Cell → Option ℤ
  | .timestamp nanos => some nanos
  | _ => none

def buildTyped (ty : ColumnType) (n : ℕ) (cells : Sparse) : ArrowArray :=
  match ty with
  | .int64 => .int64s (fillColumn n Cell.int? cells)
  | .float64 => .float64s (fillColumn n Cell.float? cells)
  | .bool => .booleans (fillColumn n Cell.bool? cells)
  | .string => .strings (fillColumn n Cell.str? cells)
  | .timestamp => .timestamps (fillColumn n Cell.timestamp? cells)

/-- `n as i64` of a `u64`. -/
def asI64 (n : ℕ) : ℤ := if n < 2 ^ 63 then n else (n : ℤ) - 2 ^ 64

/-- The origin of a row: that of a relayed one, or else the writing node. -/
def originOf (node : Option Text) (r : LogRecord) : Option Text :=
  (r.attributes.findSome? fun a =>
    match a.value with
    | .str s => if a.key = Peer.attrOrigin ∧ s ≠ [] then some s else none
    | _ => none).or node

def baseField (name : String) (array : ArrowArray) : Field := ⟨name.toList, none, array⟩

def typedField (c : TypedColumn) (array : ArrowArray) : Field :=
  ⟨c.column, some (c.key, c.ty.asStr), array⟩

/-- The columns every batch has. -/
def baseFields (records : List LogRecord) (json : List (Option Text)) (node : Option Text) :
    List Field :=
  [baseField "event_id" (.binaries (records.map fun r => some r.eventId.bytes)),
    baseField "timestamp" (.timestamps (records.map fun r => some (asI64 r.timestampUnixNano))),
    baseField "observed" (.timestamps (records.map fun r => some (asI64 r.observedUnixNano))),
    baseField "severity" (.uint8s (records.map fun r => some r.severity.num)),
    baseField "severity_text" (.strings (records.map LogRecord.severityText)),
    baseField "body" (.strings (records.map fun r => some r.body)),
    baseField "service" (.strings (records.map LogRecord.service)),
    baseField "trace_id" (.binaries (records.map fun r => r.traceId.map Subtype.val)),
    baseField "span_id" (.binaries (records.map fun r => r.spanId.map Subtype.val)),
    baseField "template_id" (.uint64s (records.map LogRecord.templateId)),
    baseField "attributes" (.strings json),
    baseField "origin" (.dictionary (records.map (originOf node)))]

/-- `to_record_batch_from`. -/
def toRecordBatchFrom (fl : FloatText) (records : List LogRecord) (layout : TypedLayout)
    (node : Option Text) : RecordBatch :=
  let n := records.length
  let built := records.zipIdx.foldl (buildRow fl layout)
    ⟨List.replicate layout.columns.length [], []⟩
  let typed := (layout.columns.zip built.cells).filterMap fun (c, cells) =>
    if cells = [] then none else some (typedField c (buildTyped c.ty n cells))
  ⟨n, baseFields records built.json node ++ typed⟩

/-! ## Reading -/

/-- `typed_reader`: the values of a typed column by row, if it has the type it says. -/
def typedReader (array : ArrowArray) (ty : ColumnType) : Option (ℕ → Option AttrValue) :=
  match ty, array with
  | .int64, .int64s rows => some fun row => rows[row]?.join.map .i64
  | .float64, .float64s rows => some fun row => rows[row]?.join.map .f64
  | .bool, .booleans rows => some fun row => rows[row]?.join.map .bool
  | .string, .strings rows => some fun row => rows[row]?.join.map .str
  | .timestamp, .timestamps rows =>
    some fun row => rows[row]?.join.map fun nanos => .str (formatTimestamp nanos)
  | _, _ => none

/-- The readers of the typed columns of a batch, with their keys. -/
def typedColumns (b : RecordBatch) : List (Text × (ℕ → Option AttrValue)) :=
  b.fields.filterMap fun f => do
    let (key, tyText) ← f.attr
    let ty ← ColumnType.parse tyText
    let array ← b.columnByName f.name
    let reader ← typedReader array ty
    return (key, reader)

def attrsFromStr (fl : FloatText) (json : Text) : Option (List Attr) :=
  (parse json).bind (readAttrs fl)

section

variable (b : RecordBatch)

def timestamps (name : String) : Option (List (Option ℤ)) :=
  match b.columnByName name.toList with
  | some (.timestamps rows) => some rows
  | _ => none

def uint8s (name : String) : Option (List (Option UInt8)) :=
  match b.columnByName name.toList with
  | some (.uint8s rows) => some rows
  | _ => none

def uint64s (name : String) : Option (List (Option ℕ)) :=
  match b.columnByName name.toList with
  | some (.uint64s rows) => some rows
  | _ => none

def strings (name : String) : Option (List (Option Text)) :=
  match b.columnByName name.toList with
  | some (.strings rows) => some rows
  | _ => none

def binaries (name : String) : Option (List (Option (List UInt8))) :=
  match b.columnByName name.toList with
  | some (.binaries rows) => some rows
  | _ => none

end

/-- A value of a column that may be missing, null or of another length. -/
def cellAt {α : Type} (column : Option (List (Option α))) (row : ℕ) : Option α :=
  column.bind fun rows => rows[row]?.join

def byteArr (n : ℕ) (bytes : List UInt8) : Option (ByteArr n) :=
  if h : bytes.length = n then some ⟨bytes, h⟩ else none

/-- One row. `newId` is the event id that `LogRecord::new` gives. -/
def readRow (fl : FloatText) (b : RecordBatch) (timestamp observed : List (Option ℤ))
    (severity : List (Option UInt8)) (body : List (Option Text)) (newId : Uuid) (row : ℕ) :
    LogRecord where
  eventId :=
    match (cellAt (binaries b "event_id") row).bind (byteArr 16) with
    | some bytes => ⟨bytes.val, bytes.property⟩
    | none => newId
  timestampUnixNano := (timestamp[row]?.join.getD 0).toNat
  observedUnixNano := (observed[row]?.join.getD 0).toNat
  severity := ⟨severity[row]?.join.getD 0⟩
  severityText := cellAt (strings b "severity_text") row
  body := body[row]?.join.getD []
  service := cellAt (strings b "service") row
  traceId := (cellAt (binaries b "trace_id") row).bind (byteArr 16)
  spanId := (cellAt (binaries b "span_id") row).bind (byteArr 8)
  attributes :=
    (typedColumns b).filterMap (fun (key, read) => (read row).map fun value => ⟨key, value⟩)
      ++ ((cellAt (strings b "attributes") row).bind (attrsFromStr fl)).getD []
  templateId := cellAt (uint64s b "template_id") row

/-- `from_record_batch`. Without one of the required columns there are no rows. -/
def fromRecordBatch (fl : FloatText) (newId : ℕ → Uuid) (b : RecordBatch) : List LogRecord :=
  match timestamps b "timestamp", timestamps b "observed", uint8s b "severity",
      strings b "body" with
  | some timestamp, some observed, some severity, some body =>
    (List.range b.numRows).map fun row =>
      readRow fl b timestamp observed severity body (newId row) row
  | _, _, _, _ => []

/-! ## Filling a column -/

/-- The cells of one column, for rows of which some have a cell. -/
def sparseOf {α : Type} (g : α → Option Cell) (rows : List (α × ℕ)) : Sparse :=
  rows.filterMap fun (x, row) => (g x).map fun cell => (row, cell)

theorem sparseOf_append {α : Type} (g : α → Option Cell) (rows rows' : List (α × ℕ)) :
    sparseOf g (rows ++ rows') = sparseOf g rows ++ sparseOf g rows' := List.filterMap_append

theorem sparseOf_singleton {α : Type} (g : α → Option Cell) (x : α) (row : ℕ) :
    sparseOf g [(x, row)] = ((g x).map fun cell => (row, cell)).toList := by
  cases hx : g x <;> simp [sparseOf, hx]

/-- A column holds a value for each row with a cell of its kind. -/
theorem fillColumn_sparseOf {α β : Type} (g : α → Option Cell) (value : Cell → Option β)
    (l : List α) :
    fillColumn l.length value (sparseOf g l.zipIdx) = l.map fun x => (g x).bind value := by
  unfold fillColumn
  simp only
  generalize hstep : (fun (s : List (Option β) × ℕ) (c : ℕ × Cell) =>
    (s.1 ++ List.replicate (c.1 - s.2) none ++ [value c.2], c.1 + 1)) = step
  -- what is filled so far ends before the next row
  suffices h : ((sparseOf g l.zipIdx).foldl step ([], 0)).2 ≤ l.length ∧
      ((sparseOf g l.zipIdx).foldl step ([], 0)).1
        ++ List.replicate (l.length - ((sparseOf g l.zipIdx).foldl step ([], 0)).2) none
        = l.map fun x => (g x).bind value from h.2
  induction l using List.reverseRecOn with
  | nil => simp [sparseOf]
  | append_singleton l x ih =>
    obtain ⟨hle, hfill⟩ := ih
    have hsparse : sparseOf g (l ++ [x]).zipIdx
        = sparseOf g l.zipIdx ++ ((g x).map fun cell => (l.length, cell)).toList := by
      rw [List.zipIdx_append, sparseOf_append, ← sparseOf_singleton]
      simp
    rw [hsparse, List.foldl_append]
    generalize (sparseOf g l.zipIdx).foldl step ([], 0) = s at hle hfill
    rw [List.map_append, List.map_singleton, ← hfill, List.length_append, List.length_singleton]
    cases hx : g x with
    | none =>
      simp only [Option.map_none, Option.toList_none, List.foldl_nil, Option.bind_none]
      refine ⟨by omega, ?_⟩
      rw [show l.length + 1 - s.2 = (l.length - s.2) + 1 by omega, List.replicate_succ',
        List.append_assoc]
    | some cell =>
      simp only [Option.map_some, Option.toList_some, List.foldl_cons, List.foldl_nil,
        Option.bind_some, ← hstep]
      exact ⟨le_rfl, by simp⟩

/-! ## Placing the attributes of a row -/

/-- The cells of a row with their columns, and the attributes left for the JSON. -/
def place (layout : TypedLayout) (s : List (ℕ × Cell) × List Attr) (a : Attr) :
    List (ℕ × Cell) × List Attr :=
  match columnFor layout (s.1.map Prod.fst) a with
  | some c => (s.1 ++ [c], s.2)
  | none => (s.1, s.2 ++ [a])

def placed (layout : TypedLayout) (as : List Attr) : List (ℕ × Cell) × List Attr :=
  as.foldl (place layout) ([], [])

/-- The attributes of a record that go to the JSON. -/
def remainder (layout : TypedLayout) (r : LogRecord) : List Attr := (placed layout r.attributes).2

/-- The cells of a row put into their columns. -/
def addRow (row : ℕ) (cells : List Sparse) (p : List (ℕ × Cell)) : List Sparse :=
  p.foldl (fun cells (c : ℕ × Cell) => cells.modify c.1 (· ++ [(row, c.2)])) cells

theorem foldl_placeAttr (layout : TypedLayout) (row : ℕ) (cells : List Sparse) (as : List Attr)
    (s : List (ℕ × Cell) × List Attr) :
    as.foldl (placeAttr layout row) ⟨s.1.map Prod.fst, addRow row cells s.1, s.2⟩
      = ⟨(as.foldl (place layout) s).1.map Prod.fst,
        addRow row cells (as.foldl (place layout) s).1, (as.foldl (place layout) s).2⟩ := by
  induction as generalizing s with
  | nil => rfl
  | cons a as ih =>
    rw [List.foldl_cons, List.foldl_cons, ← ih]
    congr 1
    rw [placeAttr, place]
    cases columnFor layout (s.1.map Prod.fst) a with
    | none => rfl
    | some c => simp [addRow, List.foldl_append]

theorem columnFor_eq_some {layout : TypedLayout} {used : List ℕ} {a : Attr} {i : ℕ} {cell : Cell}
    (h : columnFor layout used a = some (i, cell)) :
    layout.indexOf a.key = some i ∧ i ∉ used ∧
      ∃ c, layout.columns[i]? = some c ∧ c.key = a.key ∧ conform a.value c.ty = some cell := by
  obtain ⟨j, hj, h⟩ := Option.bind_eq_some_iff.mp h
  obtain ⟨c, hc, h⟩ := Option.bind_eq_some_iff.mp h
  obtain ⟨cell', hcell, h⟩ := Option.bind_eq_some_iff.mp h
  obtain ⟨hindex, hused⟩ := Option.filter_eq_some_iff.mp hj
  obtain ⟨rfl, rfl⟩ := Prod.mk.inj (Option.some.inj h)
  obtain ⟨c', hc', hkey⟩ := TypedLayout.getElem?_of_indexOf hindex
  rw [hc, Option.some.injEq] at hc'
  subst hc'
  exact ⟨hindex, by simpa using hused, c, hc, hkey, hcell⟩

/-- Each column of a row is taken once, and is one of the layout. -/
theorem placed_columns (layout : TypedLayout) (as : List Attr) :
    ((placed layout as).1.map Prod.fst).Nodup ∧
      ∀ c ∈ (placed layout as).1, c.1 < layout.columns.length := by
  suffices h : ∀ s : List (ℕ × Cell) × List Attr,
      (s.1.map Prod.fst).Nodup → (∀ c ∈ s.1, c.1 < layout.columns.length) →
      ((as.foldl (place layout) s).1.map Prod.fst).Nodup ∧
        ∀ c ∈ (as.foldl (place layout) s).1, c.1 < layout.columns.length from
    h ([], []) (by simp) (by simp)
  induction as with
  | nil => exact fun s hn hlt => ⟨hn, hlt⟩
  | cons a as ih =>
    intro s hn hlt
    rw [List.foldl_cons]
    cases hc : columnFor layout (s.1.map Prod.fst) a with
    | none => exact ih _ (by rw [place, hc]; exact hn) (by rw [place, hc]; exact hlt)
    | some c =>
      obtain ⟨i, cell⟩ := c
      obtain ⟨-, hused, col, hcol, -⟩ := columnFor_eq_some hc
      rw [place, hc]
      refine ih _ ?_ ?_
      · rw [List.map_append, List.nodup_append]
        refine ⟨hn, by simp, ?_⟩
        intro x hx y hy hxy
        rw [List.map_singleton, List.mem_singleton] at hy
        rw [hxy, hy] at hx
        exact hused hx
      · intro c hmem
        rcases List.mem_append.mp hmem with hmem | hmem
        · exact hlt c hmem
        · rw [List.mem_singleton.mp hmem]
          exact (List.getElem?_eq_some_iff.mp hcol).1

theorem getElem?_addRow (row : ℕ) {p : List (ℕ × Cell)} (hn : (p.map Prod.fst).Nodup)
    (cells : List Sparse) (i : ℕ) :
    (addRow row cells p)[i]?
      = cells[i]?.map (· ++ ((Assoc.get p i).map fun cell => (row, cell)).toList) := by
  induction p generalizing cells with
  | nil => simp [addRow]
  | cons c p ih =>
    obtain ⟨j, cell⟩ := c
    rw [List.map_cons, List.nodup_cons] at hn
    have hrest := ih hn.2 (cells.modify j (· ++ [(row, cell)]))
    rw [addRow] at hrest
    rw [addRow, List.foldl_cons, hrest, List.getElem?_modify]
    by_cases hij : j = i
    · subst hij
      have hnone : Assoc.get p j = none := by
        rw [Assoc.get, Option.map_eq_none_iff, List.find?_eq_none]
        intro e he
        simp only [beq_iff_eq]
        intro hej
        have hmem : e.1 ∈ p.map Prod.fst := List.mem_map_of_mem he
        exact hn.1 (hej ▸ hmem)
      have hsome : Assoc.get ((j, cell) :: p) j = some cell := by simp [Assoc.get]
      rw [hnone, hsome]
      cases cells[j]? <;> simp
    · have hget : Assoc.get ((j, cell) :: p) i = Assoc.get p i := by simp [Assoc.get, hij]
      rw [hget]
      cases cells[i]? <;> simp [hij]

/-! ## The columns of a batch -/

/-- The cell of a record in a column. -/
def cellOf (layout : TypedLayout) (i : ℕ) (r : LogRecord) : Option Cell :=
  Assoc.get (placed layout r.attributes).1 i

/-- The JSON of a record. -/
def jsonOf (fl : FloatText) (layout : TypedLayout) (r : LogRecord) : Option Text :=
  if remainder layout r = [] then none else some (attrsToString fl (remainder layout r))

theorem buildRow_eq (fl : FloatText) (layout : TypedLayout) (s : BuildState) (r : LogRecord)
    (row : ℕ) :
    buildRow fl layout s (r, row)
      = ⟨addRow row s.cells (placed layout r.attributes).1, s.json ++ [jsonOf fl layout r]⟩ := by
  have h := foldl_placeAttr layout row s.cells r.attributes ([], [])
  have hstart : (⟨[], s.cells, []⟩ : RowState)
      = ⟨([] : List (ℕ × Cell)).map Prod.fst, addRow row s.cells [], []⟩ := rfl
  rw [buildRow, hstart, h]
  rfl

theorem foldl_buildRow (fl : FloatText) (layout : TypedLayout) (records : List LogRecord)
    (n : ℕ) (s : BuildState) :
    ((records.zipIdx n).foldl (buildRow fl layout) s).json = s.json ++ records.map (jsonOf fl layout)
      ∧ ∀ i, ((records.zipIdx n).foldl (buildRow fl layout) s).cells[i]?
        = s.cells[i]?.map (· ++ sparseOf (cellOf layout i) (records.zipIdx n)) := by
  induction records generalizing n s with
  | nil => simp [sparseOf]
  | cons r records ih =>
    rw [List.zipIdx_cons, List.foldl_cons, buildRow_eq]
    obtain ⟨hjson, hcells⟩ := ih (n + 1)
      ⟨addRow n s.cells (placed layout r.attributes).1, s.json ++ [jsonOf fl layout r]⟩
    refine ⟨by rw [hjson]; simp, fun i => ?_⟩
    rw [hcells, getElem?_addRow n (placed_columns layout r.attributes).1]
    have hsparse : sparseOf (cellOf layout i) ((r, n) :: records.zipIdx (n + 1))
        = ((cellOf layout i r).map fun cell => (n, cell)).toList
          ++ sparseOf (cellOf layout i) (records.zipIdx (n + 1)) := by
      rw [← List.singleton_append, sparseOf_append, sparseOf_singleton]
    rw [hsparse, Option.map_map]
    cases s.cells[i]? with
    | none => rfl
    | some cells => simp [cellOf]

/-- The columns of a batch before the empty ones are left out. -/
theorem built_cells (fl : FloatText) (layout : TypedLayout) (records : List LogRecord) :
    (records.zipIdx.foldl (buildRow fl layout)
        ⟨List.replicate layout.columns.length [], []⟩).cells
      = (List.range layout.columns.length).map
        fun i => sparseOf (cellOf layout i) records.zipIdx := by
  obtain ⟨-, hcells⟩ :=
    foldl_buildRow fl layout records 0 ⟨List.replicate layout.columns.length [], []⟩
  apply List.ext_getElem?
  intro i
  rw [hcells, List.getElem?_map]
  by_cases hi : i < layout.columns.length
  · simp [hi]
  · simp [hi]

/-! ## Finding the columns of a batch -/

theorem columnName_eq_some {key name : Text} (h : columnName key = some name) :
    ∃ rest, name = columnPrefix ++ rest := by
  unfold columnName at h
  simp only at h
  split at h
  · cases h
  · exact ⟨_, (Option.some.inj h).symm⟩

/-- The typed fields of a batch: those of the columns with a cell. -/
def typedFields (layout : TypedLayout) (records : List LogRecord) : List Field :=
  layout.columns.zipIdx.filterMap fun (c, i) =>
    if sparseOf (cellOf layout i) records.zipIdx = [] then none
    else some (typedField c
      (buildTyped c.ty records.length (sparseOf (cellOf layout i) records.zipIdx)))

theorem toRecordBatchFrom_eq (fl : FloatText) (records : List LogRecord) (layout : TypedLayout)
    (node : Option Text) :
    toRecordBatchFrom fl records layout node = ⟨records.length,
      baseFields records (records.map (jsonOf fl layout)) node ++ typedFields layout records⟩ := by
  have hjson := (foldl_buildRow fl layout records 0
    ⟨List.replicate layout.columns.length [], []⟩).1
  simp only [toRecordBatchFrom, hjson, built_cells, Lists.zip_map_range, List.filterMap_map]
  rfl

/-- In a list with every name once, a field is found by its name. -/
theorem find?_field {fields : List Field} (hn : (fields.map Field.name).Nodup) {f : Field}
    (hf : f ∈ fields) : fields.find? (fun x => x.name == f.name) = some f := by
  induction fields with
  | nil => cases hf
  | cons x fields ih =>
    rw [List.map_cons, List.nodup_cons] at hn
    rcases List.mem_cons.mp hf with rfl | hf
    · simp
    · have hne : x.name ≠ f.name := by
        intro heq
        have hmem : f.name ∈ fields.map Field.name := List.mem_map_of_mem hf
        exact hn.1 (heq ▸ hmem)
      rw [List.find?_cons_of_neg (by simpa using hne), ih hn.2 hf]

theorem typedFields_name {layout : TypedLayout} {records : List LogRecord} {f : Field}
    (hf : f ∈ typedFields layout records) :
    ∃ c i, layout.columns[i]? = some c ∧
      f = typedField c (buildTyped c.ty records.length (sparseOf (cellOf layout i) records.zipIdx)) := by
  obtain ⟨⟨c, i⟩, hc, hf⟩ := List.mem_filterMap.mp hf
  rw [List.mem_zipIdx_iff_getElem?] at hc
  simp only at hf
  split at hf
  · cases hf
  · exact ⟨c, i, hc, (Option.some.inj hf).symm⟩

/-- No two fields of a batch have one name. -/
theorem nodup_fields {layout : TypedLayout} (hnamed : ∀ c ∈ layout.columns, Named c)
    (hnodup : (layout.columns.map TypedColumn.column).Nodup) (records : List LogRecord)
    (json : List (Option Text)) (node : Option Text) :
    ((baseFields records json node ++ typedFields layout records).map Field.name).Nodup := by
  have hbase : (baseFields records json node).map Field.name
      = ["event_id", "timestamp", "observed", "severity", "severity_text", "body", "service",
        "trace_id", "span_id", "template_id", "attributes", "origin"].map String.toList := rfl
  rw [List.map_append, List.nodup_append, hbase]
  refine ⟨by decide, ?_, ?_⟩
  · refine List.Nodup.sublist (Lists.sublist_filterMap (g := fun e => e.1.column) ?_ _) ?_
    · rintro ⟨c, i⟩ f hf
      simp only at hf
      split at hf
      · cases hf
      · rw [← Option.some.inj hf]
        rfl
    · have hfst : layout.columns.zipIdx.map (fun e => e.1.column)
          = layout.columns.map TypedColumn.column := by
        have h := congrArg (List.map TypedColumn.column) (List.zipIdx_map_fst 0 layout.columns)
        rwa [List.map_map] at h
      rw [hfst]
      exact hnodup
  · -- a typed column begins with the prefix, a base column does not
    intro x hx y hy hxy
    obtain ⟨f, hf, rfl⟩ := List.mem_map.mp hy
    obtain ⟨c, i, hc, rfl⟩ := typedFields_name hf
    obtain ⟨rest, hname⟩ := columnName_eq_some (hnamed c (List.mem_of_getElem? hc))
    have hpre : columnPrefix.isPrefixOf x = true := by
      rw [hxy]
      show columnPrefix.isPrefixOf c.column = true
      rw [hname, List.isPrefixOf_iff_prefix]
      exact List.prefix_append _ _
    have hall : ∀ x ∈ ["event_id", "timestamp", "observed", "severity", "severity_text", "body",
        "service", "trace_id", "span_id", "template_id", "attributes", "origin"].map
        String.toList, columnPrefix.isPrefixOf x = false := by decide
    rw [hall x hx] at hpre
    cases hpre

/-! ## Reading the typed columns -/

/-- The value of a cell in a column of a type, if it is of its kind. -/
def cellValue (ty : ColumnType) (cell : Cell) : Option AttrValue :=
  match ty, cell with
  | .int64, .int v => some (.i64 v)
  | .float64, .float bits => some (.f64 bits)
  | .bool, .bool b => some (.bool b)
  | .string, .str s => some (.str s)
  | .timestamp, .timestamp nanos => some (.str (formatTimestamp nanos))
  | _, _ => none

/-- The attribute a cell is read as. -/
def cellAttr (layout : TypedLayout) (c : ℕ × Cell) : Option Attr :=
  layout.columns[c.1]?.bind fun col => (cellValue col.ty c.2).map fun value => ⟨col.key, value⟩

theorem parse_asStr (ty : ColumnType) : ColumnType.parse ty.asStr = some ty := by
  cases ty <;> decide

/-- A column is read as the values of its cells. -/
theorem typedReader_buildTyped (ty : ColumnType) (g : LogRecord → Option Cell)
    (records : List LogRecord) :
    ∃ read, typedReader (buildTyped ty records.length (sparseOf g records.zipIdx)) ty = some read ∧
      ∀ row r, records[row]? = some r → read row = (g r).bind (cellValue ty) := by
  cases ty <;> simp only [buildTyped, fillColumn_sparseOf]
  all_goals
    refine ⟨_, rfl, fun row r hr => ?_⟩
    simp only [List.getElem?_map, hr, Option.map_some, Option.join_some]
    cases g r with
    | none => rfl
    | some cell => cases cell <;> rfl

theorem mem_sparseOf {g : LogRecord → Option Cell} {records : List LogRecord} {row : ℕ}
    {r : LogRecord} (hr : records[row]? = some r) {cell : Cell} (hcell : g r = some cell) :
    (row, cell) ∈ sparseOf g records.zipIdx :=
  List.mem_filterMap.mpr
    ⟨(r, row), List.mem_zipIdx_iff_getElem?.mpr hr, by simp only [hcell, Option.map_some]⟩

/-- What `typed_columns_of` and `typed_reader` make of one field. -/
def fieldReader (b : RecordBatch) (f : Field) : Option (Text × (ℕ → Option AttrValue)) := do
  let (key, tyText) ← f.attr
  let ty ← ColumnType.parse tyText
  let array ← b.columnByName f.name
  let reader ← typedReader array ty
  return (key, reader)

theorem fieldReader_typedField {b : RecordBatch} (hn : (b.fields.map Field.name).Nodup)
    {c : TypedColumn} {array : ArrowArray} (hf : typedField c array ∈ b.fields)
    {read : ℕ → Option AttrValue} (hread : typedReader array c.ty = some read) :
    fieldReader b (typedField c array) = some (c.key, read) := by
  have hcol : b.columnByName c.column = some array := by
    have hfind := find?_field hn hf
    rw [RecordBatch.columnByName]
    exact congrArg (Option.map Field.array) hfind
  show (ColumnType.parse c.ty.asStr).bind (fun ty => (b.columnByName c.column).bind fun array =>
    (typedReader array ty).bind fun reader => some (c.key, reader)) = _
  rw [parse_asStr, Option.bind_some, hcol, Option.bind_some, hread, Option.bind_some]

/-- The attributes a row has in the typed columns. -/
theorem typedColumns_toRecordBatchFrom (fl : FloatText) {layout : TypedLayout}
    (hnamed : ∀ c ∈ layout.columns, Named c)
    (hnodup : (layout.columns.map TypedColumn.column).Nodup) (records : List LogRecord)
    (node : Option Text) {row : ℕ} {r : LogRecord} (hr : records[row]? = some r) :
    (typedColumns (toRecordBatchFrom fl records layout node)).filterMap
        (fun (key, read) => (read row).map fun value => (⟨key, value⟩ : Attr))
      = layout.columns.zipIdx.filterMap fun (_, i) =>
        (cellOf layout i r).bind fun cell => cellAttr layout (i, cell) := by
  rw [toRecordBatchFrom_eq]
  generalize hb : (⟨records.length, baseFields records (records.map (jsonOf fl layout)) node
    ++ typedFields layout records⟩ : RecordBatch) = b
  have hfields : b.fields = baseFields records (records.map (jsonOf fl layout)) node
      ++ typedFields layout records := by rw [← hb]
  have hn : (b.fields.map Field.name).Nodup := by
    rw [hfields]
    exact nodup_fields hnamed hnodup records _ node
  -- only the typed fields are read here
  have hcolumns : typedColumns b = (typedFields layout records).filterMap (fieldReader b) := by
    show b.fields.filterMap (fieldReader b) = _
    conv_lhs => rw [hfields, List.filterMap_append]
    rfl
  rw [hcolumns, typedFields, List.filterMap_filterMap, List.filterMap_filterMap]
  refine List.filterMap_congr ?_
  rintro ⟨c, i⟩ hci
  rw [List.mem_zipIdx_iff_getElem?] at hci
  simp only
  split
  · next hempty =>
    have hnone : cellOf layout i r = none := by
      by_contra hne
      obtain ⟨cell, hcell⟩ := Option.ne_none_iff_exists'.mp hne
      have hmem := mem_sparseOf (g := cellOf layout i) hr hcell
      rw [hempty] at hmem
      cases hmem
    rw [hnone]
    rfl
  · next hcells =>
    obtain ⟨read, hread, hrow⟩ := typedReader_buildTyped c.ty (cellOf layout i) records
    have hmem : typedField c (buildTyped c.ty records.length
        (sparseOf (cellOf layout i) records.zipIdx)) ∈ b.fields := by
      rw [hfields]
      refine List.mem_append_right _ (List.mem_filterMap.mpr ⟨(c, i), ?_, if_neg hcells⟩)
      exact List.mem_zipIdx_iff_getElem?.mpr hci
    rw [Option.bind_some, fieldReader_typedField hn hmem hread, Option.bind_some]
    simp only [hrow row r hr, Option.map_bind, cellAttr, hci, Option.bind_some]
    rfl

/-! ## What a record comes back as -/

/-- The type of the column of a key. -/
def columnType (layout : TypedLayout) (key : Text) : Option ColumnType :=
  (layout.indexOf key).bind fun i => layout.columns[i]?.map TypedColumn.ty

/-- The column of its key takes this value. -/
def fits (layout : TypedLayout) (a : Attr) : Bool :=
  ((columnType layout a.key).bind (conform a.value)).isSome

/-- An attribute as it is read back: an integer becomes a float if its key has a float column
that takes it, and no earlier attribute of the record is in that column. -/
def replayedAttr (layout : TypedLayout) (before : List Attr) (a : Attr) : Attr :=
  match a.value with
  | .i64 v =>
    if columnType layout a.key = some .float64 ∧ v.natAbs ≤ f64ExactInt ∧
        before.any (fun b => b.key == a.key && fits layout b) = false then
      ⟨a.key, .f64 (Float64.ofInt v)⟩
    else a
  | _ => a

def replayed (layout : TypedLayout) : List Attr → List Attr → List Attr
  | _, [] => []
  | before, a :: as => replayedAttr layout before a :: replayed layout (before ++ [a]) as

/-- The columns in use after some attributes of a row. -/
def UsedBy (layout : TypedLayout) (before : List Attr) (used : List ℕ) : Prop :=
  ∀ i, i ∈ used ↔ ∃ b ∈ before, layout.indexOf b.key = some i ∧ fits layout b = true

theorem columnType_of_indexOf {layout : TypedLayout} {key : Text} {i : ℕ} {c : TypedColumn}
    (hi : layout.indexOf key = some i) (hc : layout.columns[i]? = some c) :
    columnType layout key = some c.ty := by
  rw [columnType, hi, Option.bind_some, hc]
  rfl

/-- One index, one key. -/
theorem key_eq_of_indexOf {layout : TypedLayout} {key key' : Text} {i : ℕ}
    (h : layout.indexOf key = some i) (h' : layout.indexOf key' = some i) : key = key' := by
  obtain ⟨c, hc, rfl⟩ := TypedLayout.getElem?_of_indexOf h
  obtain ⟨c', hc', rfl⟩ := TypedLayout.getElem?_of_indexOf h'
  rw [hc, Option.some.injEq] at hc'
  rw [hc']

/-- The attributes before are in the column of a key exactly if it is in use. -/
theorem UsedBy.any_iff {layout : TypedLayout} {before : List Attr} {used : List ℕ}
    (h : UsedBy layout before used) {key : Text} {i : ℕ} (hi : layout.indexOf key = some i) :
    before.any (fun b => b.key == key && fits layout b) = true ↔ i ∈ used := by
  rw [h i]
  simp only [List.any_eq_true, Bool.and_eq_true, beq_iff_eq]
  constructor
  · rintro ⟨b, hb, rfl, hfits⟩
    exact ⟨b, hb, hi, hfits⟩
  · rintro ⟨b, hb, hbi, hfits⟩
    exact ⟨b, hb, key_eq_of_indexOf hbi hi, hfits⟩

/-- What a column gives back for a value it takes: an integer in a float column as a float. -/
def storedValue (ty : ColumnType) (value : AttrValue) : AttrValue :=
  match ty, value with
  | .float64, .i64 v => .f64 (Float64.ofInt v)
  | _, value => value

theorem cellValue_of_conform {ty : ColumnType} {value : AttrValue} {cell : Cell}
    (h : conform value ty = some cell) : cellValue ty cell = some (storedValue ty value) := by
  cases ty with
  | int64 =>
    cases value with
    | i64 v => rw [← Option.some.inj h]; rfl
    | _ => cases h
  | float64 =>
    cases value with
    | f64 bits => rw [← Option.some.inj h]; rfl
    | i64 v =>
      simp only [conform] at h
      split at h
      · rw [← Option.some.inj h]; rfl
      · cases h
    | _ => cases h
  | bool =>
    cases value with
    | bool b => rw [← Option.some.inj h]; rfl
    | _ => cases h
  | string =>
    cases value with
    | str s => rw [← Option.some.inj h]; rfl
    | _ => cases h
  | timestamp =>
    cases value with
    | str s =>
      obtain ⟨nanos, hparse, rfl⟩ := Option.map_eq_some_iff.mp h
      show some (AttrValue.str (formatTimestamp nanos)) = some (.str s)
      rw [formatTimestamp_of_parse hparse]
    | _ => cases h

/-- A text is promoted to a timestamp only if it is the one its timestamp is written as, every
timestamp of a supported year is read from its text, and a timestamp column gives back the
texts it was built from. -/
theorem timestamps_lossless :
    (∀ s nanos, parseCanonicalTimestamp s = some nanos → formatTimestamp nanos = s) ∧
    (∀ nanos : ℤ, -2 ^ 63 ≤ nanos ∧ nanos < 2 ^ 63 → Supported nanos →
      parseCanonicalTimestamp (formatTimestamp nanos) = some nanos) ∧
    ∀ (text : LogRecord → Text) (records : List LogRecord),
      ∃ read, typedReader (buildTyped .timestamp records.length
          (sparseOf (fun r => conform (.str (text r)) .timestamp) records.zipIdx)) .timestamp
            = some read ∧
        ∀ row r cell, records[row]? = some r → conform (.str (text r)) .timestamp = some cell →
          read row = some (.str (text r)) := by
  refine ⟨fun s nanos => formatTimestamp_of_parse, fun nanos => parse_formatTimestamp, ?_⟩
  intro text records
  obtain ⟨read, hread, hrows⟩ :=
    typedReader_buildTyped .timestamp (fun r => conform (.str (text r)) .timestamp) records
  refine ⟨read, hread, fun row r cell hr hcell => ?_⟩
  rw [hrows row r hr, hcell, Option.bind_some, cellValue_of_conform hcell]
  rfl

theorem timestamps_lossless_before_epoch :
    formatTimestamp (-500000000) = "1969-12-31T23:59:59.500Z".toList ∧
      parseCanonicalTimestamp (formatTimestamp (-500000000)) = some (-500000000) := by
  have hparse : parseCanonicalTimestamp "1969-12-31T23:59:59.500Z".toList = some (-500000000) := by
    decide +kernel
  have hyear : Supported (-500000000) := by
    unfold Supported
    decide +kernel
  exact ⟨timestamps_lossless.1 _ _ hparse,
    timestamps_lossless.2.1 (-500000000) (by decide) hyear⟩

theorem replayedAttr_eq_stored {layout : TypedLayout} {before : List Attr} {a : Attr}
    {ty : ColumnType} {cell : Cell} (htype : columnType layout a.key = some ty)
    (hconf : conform a.value ty = some cell)
    (hfree : before.any (fun b => b.key == a.key && fits layout b) = false) :
    replayedAttr layout before a = ⟨a.key, storedValue ty a.value⟩ := by
  obtain ⟨key, value⟩ := a
  cases value with
  | i64 v =>
    simp only [replayedAttr, htype, hfree, Option.some.injEq]
    cases ty with
    | float64 =>
      have hexact : v.natAbs ≤ f64ExactInt := by
        by_contra hnot
        simp only [conform, hnot, if_false] at hconf
        cases hconf
      simp [hexact, storedValue]
    | _ => simp [storedValue]
  | str s => cases ty <;> rfl
  | f64 bits => cases ty <;> rfl
  | bool b => cases ty <;> rfl

/-- An attribute a column takes is read back from it. -/
theorem cellAttr_columnFor {layout : TypedLayout} {before : List Attr} {used : List ℕ}
    (hused : UsedBy layout before used) {a : Attr} {c : ℕ × Cell}
    (h : columnFor layout used a = some c) :
    cellAttr layout c = some (replayedAttr layout before a) ∧
      UsedBy layout (before ++ [a]) (used ++ [c.1]) := by
  obtain ⟨i, cell⟩ := c
  obtain ⟨hi, hfree, col, hcol, hkey, hconf⟩ := columnFor_eq_some h
  have htype := columnType_of_indexOf hi hcol
  constructor
  · have hany : before.any (fun b => b.key == a.key && fits layout b) = false := by
      rw [Bool.eq_false_iff]
      exact fun hany => hfree ((hused.any_iff hi).mp hany)
    rw [cellAttr, hcol, Option.bind_some, cellValue_of_conform hconf, hkey,
      replayedAttr_eq_stored htype hconf hany]
    rfl
  · intro j
    have hfits : fits layout a = true := by rw [fits, htype, Option.bind_some, hconf]; rfl
    simp only [List.mem_append, List.mem_singleton, hused j]
    constructor
    · rintro (⟨b, hb, hbj, hbfits⟩ | rfl)
      · exact ⟨b, .inl hb, hbj, hbfits⟩
      · exact ⟨a, .inr rfl, hi, hfits⟩
    · rintro ⟨b, hb | rfl, hbj, hbfits⟩
      · exact .inl ⟨b, hb, hbj, hbfits⟩
      · rw [hi, Option.some.injEq] at hbj
        exact .inr hbj.symm

/-- An attribute no column takes is not changed. -/
theorem replayedAttr_of_columnFor {layout : TypedLayout} {before : List Attr} {used : List ℕ}
    (hused : UsedBy layout before used) {a : Attr} (h : columnFor layout used a = none) :
    replayedAttr layout before a = a ∧ UsedBy layout (before ++ [a]) used := by
  -- the column of its key does not take the value, or is in use
  have hnone : ∀ i, layout.indexOf a.key = some i → fits layout a = true → i ∈ used := by
    intro i hi hfits
    by_contra hfree
    obtain ⟨col, hcol, -⟩ := TypedLayout.getElem?_of_indexOf hi
    rw [fits, columnType_of_indexOf hi hcol, Option.bind_some] at hfits
    obtain ⟨cell, hcell⟩ := Option.isSome_iff_exists.mp hfits
    have hfilter : (some i).filter (fun j => !used.contains j) = some i := by
      rw [Option.filter_some, if_pos (by simpa using hfree)]
    have hsome : columnFor layout used a = some (i, cell) := by
      simp only [columnFor, hi, hfilter, Option.bind_eq_bind, Option.bind_some, hcol, hcell,
        Option.pure_def]
    rw [h] at hsome
    cases hsome
  constructor
  · obtain ⟨key, value⟩ := a
    cases value with
    | i64 v =>
      simp only [replayedAttr]
      split
      · next hfloat =>
        obtain ⟨htype, hexact, hfree⟩ := hfloat
        obtain ⟨i, hi, -⟩ := Option.bind_eq_some_iff.mp htype
        have hfits : fits layout ⟨key, .i64 v⟩ = true := by
          rw [fits, htype, Option.bind_some, conform, if_pos hexact]
          rfl
        have hany := (hused.any_iff hi).mpr (hnone i hi hfits)
        rw [hfree] at hany
        cases hany
      · rfl
    | str s => rfl
    | f64 bits => rfl
    | bool b => rfl
  · intro j
    rw [hused j]
    constructor
    · rintro ⟨b, hb, hbj, hbfits⟩
      exact ⟨b, List.mem_append_left _ hb, hbj, hbfits⟩
    · rintro ⟨b, hb, hbj, hbfits⟩
      rcases List.mem_append.mp hb with hb | hb
      · exact ⟨b, hb, hbj, hbfits⟩
      · obtain rfl := List.mem_singleton.mp hb
        exact (hused j).mp (hnone j hbj hbfits)

/-- The cells of a row and its remainder are the attributes of the record. -/
theorem perm_placed (layout : TypedLayout) (as : List Attr) :
    ((placed layout as).1.filterMap (cellAttr layout) ++ (placed layout as).2).Perm
      (replayed layout [] as) := by
  suffices h : ∀ (before : List Attr) (s : List (ℕ × Cell) × List Attr),
      UsedBy layout before (s.1.map Prod.fst) →
      ((as.foldl (place layout) s).1.filterMap (cellAttr layout)
        ++ (as.foldl (place layout) s).2).Perm
        (s.1.filterMap (cellAttr layout) ++ s.2 ++ replayed layout before as) by
    simpa [placed] using h [] ([], []) (by intro i; simp)
  induction as with
  | nil => simp [replayed]
  | cons a as ih =>
    intro before s hused
    rw [List.foldl_cons, replayed]
    cases hc : columnFor layout (s.1.map Prod.fst) a with
    | none =>
      obtain ⟨hsame, hused'⟩ := replayedAttr_of_columnFor hused hc
      have hstep := ih (before ++ [a]) (s.1, s.2 ++ [a]) hused'
      rw [place, hc]
      refine hstep.trans ?_
      rw [hsame]
      simp
    | some c =>
      obtain ⟨hattr, hused'⟩ := cellAttr_columnFor hused hc
      have hstep := ih (before ++ [a]) (s.1 ++ [c], s.2) (by rwa [List.map_append])
      rw [place, hc]
      refine hstep.trans ?_
      rw [List.filterMap_append, List.filterMap_cons_some hattr, List.filterMap_nil,
        List.append_assoc, List.append_assoc, List.append_assoc]
      refine List.Perm.append_left _ ?_
      show (replayedAttr layout before a :: (s.2 ++ _)).Perm _
      exact List.perm_middle.symm

/-- Reading the columns in order gives the cells of a row in some order. -/
theorem perm_columns (layout : TypedLayout) (r : LogRecord) :
    (layout.columns.zipIdx.filterMap fun (_, i) =>
        (cellOf layout i r).bind fun cell => cellAttr layout (i, cell)).Perm
      ((placed layout r.attributes).1.filterMap (cellAttr layout)) := by
  obtain ⟨hnodup, hlt⟩ := placed_columns layout r.attributes
  have hperm := Assoc.perm_filterMap_get hnodup (List.nodup_range (n := layout.columns.length))
    fun c hc => List.mem_range.mpr (hlt c hc)
  have hrange : layout.columns.zipIdx.map Prod.snd = List.range layout.columns.length := by
    rw [List.zipIdx_map_snd, List.range_eq_range']
  have hcells : (layout.columns.zipIdx.filterMap fun (_, i) =>
      (cellOf layout i r).bind fun cell => cellAttr layout (i, cell))
      = ((List.range layout.columns.length).filterMap fun i =>
        (cellOf layout i r).map fun cell => (i, cell)).filterMap (cellAttr layout) := by
    rw [← hrange, List.filterMap_map, List.filterMap_filterMap]
    refine List.filterMap_congr fun e _ => ?_
    cases h : cellOf layout e.2 r <;> simp [h]
  rw [hcells]
  exact hperm.filterMap _

/-! ## Records survive being written as columns -/

theorem attrsFromStr_attrsToString {fl : FloatText} {as : List Attr}
    (hfit : ∀ a ∈ as, a.value.intFits = true) (hkept : ∀ a ∈ as, rereadAttr fl a = some a) :
    attrsFromStr fl (attrsToString fl as) = some as := by
  rw [attrsFromStr, attrsToString, parse_render (valid_attrs fl as), Option.bind_some,
    readAttrs_attrToValue fl hfit, Lists.mapM_eq_some_iff, List.forall₂_same]
  exact hkept

theorem byteArr_val {n : ℕ} (b : ByteArr n) : byteArr n b.val = some b := dif_pos b.property

theorem cellAt_map {α : Type} {records : List LogRecord} {row : ℕ} {r : LogRecord}
    (hr : records[row]? = some r) (f : LogRecord → Option α) :
    cellAt (some (records.map f)) row = f r := by
  rw [cellAt, Option.bind_some, List.getElem?_map, hr]
  rfl

/-- Two attributes with one key and one value, as a number where an integer became a float. -/
def SameValue (layout : TypedLayout) (a b : Attr) : Prop :=
  b.key = a.key ∧ (b.value = a.value ∨
    ∃ v bits, a.value = .i64 v ∧ columnType layout a.key = some .float64 ∧ b.value = .f64 bits ∧
      Float64.value bits = v)

theorem forall₂_replayed (layout : TypedLayout) (before as : List Attr) :
    List.Forall₂ (SameValue layout) as (replayed layout before as) := by
  induction as generalizing before with
  | nil => exact .nil
  | cons a as ih =>
    refine .cons ?_ (ih _)
    obtain ⟨key, value⟩ := a
    cases value with
    | i64 v =>
      simp only [replayedAttr]
      split
      · next hfloat =>
        exact ⟨rfl, .inr ⟨v, _, rfl, hfloat.1, rfl, Float64.value_ofInt hfloat.2.1⟩⟩
      · exact ⟨rfl, .inl rfl⟩
    | str s => exact ⟨rfl, .inl rfl⟩
    | f64 bits => exact ⟨rfl, .inl rfl⟩
    | bool b => exact ⟨rfl, .inl rfl⟩

/-- The same fields, and the same attributes in some order. -/
def Preserved (layout : TypedLayout) (r x : LogRecord) : Prop :=
  x = { r with attributes := x.attributes } ∧
    x.attributes.Perm (replayed layout [] r.attributes) ∧
    List.Forall₂ (SameValue layout) r.attributes (replayed layout [] r.attributes)

/-- Integers of their types, times an `i64` holds, and in the JSON only floats that it gives
back. -/
def Representable (fl : FloatText) (layout : TypedLayout) (r : LogRecord) : Prop :=
  r.intsFit = true ∧ r.timestampUnixNano < 2 ^ 63 ∧ r.observedUnixNano < 2 ^ 63 ∧
    ∀ a ∈ remainder layout r, ∀ bits, a.value = .f64 bits →
      isFiniteBits bits = true ∧ fl.read (fl.write bits) = some bits

theorem mem_of_mem_remainder {layout : TypedLayout} {r : LogRecord} {a : Attr}
    (h : a ∈ remainder layout r) : a ∈ r.attributes := by
  suffices hfold : ∀ (as : List Attr) (s : List (ℕ × Cell) × List Attr),
      a ∈ (as.foldl (place layout) s).2 → a ∈ s.2 ∨ a ∈ as from
    (hfold _ ([], []) h).resolve_left (by simp)
  intro as
  induction as with
  | nil => exact fun s h => .inl h
  | cons b as ih =>
    intro s h
    rcases ih _ h with h | h
    · unfold place at h
      split at h
      · exact .inl h
      · rcases List.mem_append.mp h with h | h
        · exact .inl h
        · exact .inr (by rw [List.mem_singleton.mp h]; exact List.mem_cons_self)
    · exact .inr (List.mem_cons_of_mem b h)

theorem readJson_jsonOf {fl : FloatText} {layout : TypedLayout} {r : LogRecord}
    (h : Representable fl layout r) :
    ((jsonOf fl layout r).bind (attrsFromStr fl)).getD [] = remainder layout r := by
  obtain ⟨hfit, -, -, hkept⟩ := h
  rw [jsonOf]
  split
  · next hnil => rw [hnil]; rfl
  · simp only [LogRecord.intsFit, Bool.and_eq_true, List.all_eq_true] at hfit
    rw [Option.bind_some, attrsFromStr_attrsToString
      (fun a ha => hfit.2 a (mem_of_mem_remainder ha))
      fun a ha => rereadAttr_eq_self.mpr (hkept a ha)]
    rfl

/-- A batch with these base columns. -/
structure HasColumns (b : RecordBatch) (records : List LogRecord) (json : List (Option Text)) :
    Prop where
  eventId : binaries b "event_id" = some (records.map fun r => some r.eventId.bytes)
  timestamp : timestamps b "timestamp"
    = some (records.map fun r => some (asI64 r.timestampUnixNano))
  observed : timestamps b "observed"
    = some (records.map fun r => some (asI64 r.observedUnixNano))
  severity : uint8s b "severity" = some (records.map fun r => some r.severity.num)
  severityText : strings b "severity_text" = some (records.map LogRecord.severityText)
  body : strings b "body" = some (records.map fun r => some r.body)
  service : strings b "service" = some (records.map LogRecord.service)
  traceId : binaries b "trace_id" = some (records.map fun r => r.traceId.map Subtype.val)
  spanId : binaries b "span_id" = some (records.map fun r => r.spanId.map Subtype.val)
  templateId : uint64s b "template_id" = some (records.map LogRecord.templateId)
  attributes : strings b "attributes" = some json

theorem hasColumns_toRecordBatchFrom (fl : FloatText) (records : List LogRecord)
    (layout : TypedLayout) (node : Option Text) :
    HasColumns (toRecordBatchFrom fl records layout node) records
      (records.map (jsonOf fl layout)) := by
  rw [toRecordBatchFrom_eq]
  constructor <;> rfl

theorem asI64_toNat {n : ℕ} (h : n < 2 ^ 63) : (asI64 n).toNat = n := by
  rw [asI64, if_pos h]
  exact Int.toNat_natCast n

/-- A row is read as the record it was written from. -/
theorem preserved_readRow {fl : FloatText} {layout : TypedLayout}
    (hnamed : ∀ c ∈ layout.columns, Named c)
    (hnodup : (layout.columns.map TypedColumn.column).Nodup) {records : List LogRecord}
    (node : Option Text) (newId : Uuid) {row : ℕ} {r : LogRecord} (hr : records[row]? = some r)
    (h : Representable fl layout r) :
    Preserved layout r (readRow fl (toRecordBatchFrom fl records layout node)
      (records.map fun r => some (asI64 r.timestampUnixNano))
      (records.map fun r => some (asI64 r.observedUnixNano))
      (records.map fun r => some r.severity.num) (records.map fun r => some r.body) newId row) := by
  have hattrs := typedColumns_toRecordBatchFrom fl hnamed hnodup records node hr
  have hjson := readJson_jsonOf h
  have hcols := hasColumns_toRecordBatchFrom fl records layout node
  obtain ⟨-, hts, hobs, -⟩ := h
  generalize toRecordBatchFrom fl records layout node = b at hattrs hcols
  have hat : ∀ {α : Type} (f : LogRecord → α), (records.map f)[row]? = some (f r) := by
    intro α f
    rw [List.getElem?_map, hr]
    rfl
  have harr : ∀ (n : ℕ) (o : Option (ByteArr n)),
      (o.map Subtype.val).bind (byteArr n) = o := by
    intro n o
    cases o with
    | none => rfl
    | some bytes => exact byteArr_val bytes
  have hid : byteArr 16 r.eventId.bytes = some ⟨r.eventId.bytes, r.eventId.length_bytes⟩ :=
    dif_pos r.eventId.length_bytes
  refine ⟨?_, ?_, forall₂_replayed layout [] r.attributes⟩
  · -- the base columns, one by one
    simp only [readRow, hcols.eventId, hcols.severityText, hcols.service, hcols.traceId,
      hcols.spanId, hcols.templateId, cellAt, Option.bind_some, hat, Option.join_some, harr, hid,
      Option.getD_some, asI64_toNat hts, asI64_toNat hobs]
  · have hrow : (readRow fl b (records.map fun r => some (asI64 r.timestampUnixNano))
        (records.map fun r => some (asI64 r.observedUnixNano))
        (records.map fun r => some r.severity.num) (records.map fun r => some r.body) newId
        row).attributes
        = (layout.columns.zipIdx.filterMap fun (_, i) =>
          (cellOf layout i r).bind fun cell => cellAttr layout (i, cell))
          ++ remainder layout r := by
      rw [readRow, ← hattrs, ← hjson, hcols.attributes, cellAt_map hr]
    rw [hrow]
    exact ((perm_columns layout r).append_right _).trans (perm_placed layout r.attributes)

theorem preserved_fromRecordBatch {fl : FloatText} {layout : TypedLayout}
    (hnamed : ∀ c ∈ layout.columns, Named c)
    (hnodup : (layout.columns.map TypedColumn.column).Nodup) (newId : ℕ → Uuid)
    {records : List LogRecord} (node : Option Text)
    (h : ∀ r ∈ records, Representable fl layout r) :
    List.Forall₂ (Preserved layout) records
      (fromRecordBatch fl newId (toRecordBatchFrom fl records layout node)) := by
  have hcols := hasColumns_toRecordBatchFrom fl records layout node
  rw [fromRecordBatch, hcols.timestamp, hcols.observed, hcols.severity, hcols.body]
  have hrows : (toRecordBatchFrom fl records layout node).numRows = records.length := rfl
  simp only [hrows]
  rw [List.forall₂_iff_get]
  refine ⟨by simp, fun row hlt hlt' => ?_⟩
  have hr : records[row]? = some (records.get ⟨row, hlt⟩) := List.getElem?_eq_getElem hlt
  have hrow := preserved_readRow hnamed hnodup node (newId row) hr (h _ (List.get_mem _ _))
  simpa using hrow

/-- Sorted, written as columns under a layout there can be and read back, every record has its
fields and its attributes, an integer in a float column as the float of that value. -/
theorem columns_preserve_records (fl : FloatText) (newId : ℕ → Uuid) (node : Option Text)
    {registry : List TypedColumn} {layout : TypedLayout} (hlayout : Reachable registry layout)
    (records : List LogRecord) (h : ∀ r ∈ records, Representable fl layout r) :
    (sortRecords records).Perm records ∧
      List.Forall₂ (Preserved layout) (sortRecords records)
        (fromRecordBatch fl newId (toRecordBatchFrom fl (sortRecords records) layout node)) := by
  have hperm : (sortRecords records).Perm records := List.perm_insertionSort _ records
  obtain ⟨-, hnamed, hnodup⟩ := hlayout.sound
  exact ⟨hperm, preserved_fromRecordBatch hnamed hnodup newId node
    fun r hr => h r (hperm.subset hr)⟩

def ratioRecord (value : AttrValue) : LogRecord :=
  { LogRecord.new (Uuid.nowV7 0 (List.replicate 10 0) length_zeros) 0 .INFO ['x'] with
    attributes := [⟨"ratio".toList, value⟩] }

/-- The layout after a batch of one record with the float 0.5 under `ratio`. -/
def ratioLayout : TypedLayout :=
  (TypedLayout.new []).extend (plan (fun count _ n => decide (n ≤ count)) (.new [])
    ⟨16, 128, 1, 0x3FF0000000000000, 0x3FF0000000000000, 256⟩
    [ratioRecord (.f64 0x3FE0000000000000)] 0)

theorem reachable_ratioLayout : ∃ registry, Reachable registry ratioLayout :=
  ⟨_, .plan _ _ _ _ .start⟩

theorem columns_preserve_ratio :
    ∃ registry, Reachable registry ratioLayout ∧
      (∀ r ∈ [ratioRecord (.i64 2)], Representable zeroText ratioLayout r) ∧
      List.Forall₂ (Preserved ratioLayout) (sortRecords [ratioRecord (.i64 2)])
        (fromRecordBatch zeroText (fun _ => Uuid.nowV7 0 (List.replicate 10 0) length_zeros)
          (toRecordBatchFrom zeroText (sortRecords [ratioRecord (.i64 2)]) ratioLayout none)) := by
  obtain ⟨registry, hlayout⟩ := reachable_ratioLayout
  have hrest : remainder ratioLayout (ratioRecord (.i64 2)) = [] := by decide +kernel
  have hrep : ∀ r ∈ [ratioRecord (.i64 2)], Representable zeroText ratioLayout r := by
    intro r hr
    rw [List.mem_singleton.mp hr]
    exact ⟨by decide, by decide, by decide, by simp [hrest]⟩
  exact ⟨registry, hlayout, hrep,
    (columns_preserve_records zeroText _ none hlayout [ratioRecord (.i64 2)] hrep).2⟩

/-- The integer 2 under the float column comes back as a float. -/
theorem integer_replays_as_float :
    ∃ registry, Reachable registry ratioLayout ∧
      ¬ List.Forall₂ (fun r x => x.attributes.Perm r.attributes) [ratioRecord (.i64 2)]
        (fromRecordBatch zeroText (fun _ => Uuid.nowV7 0 (List.replicate 10 0) length_zeros)
          (toRecordBatchFrom zeroText [ratioRecord (.i64 2)] ratioLayout none)) := by
  obtain ⟨registry, hlayout⟩ := reachable_ratioLayout
  refine ⟨registry, hlayout, fun h => ?_⟩
  have hback : (fromRecordBatch zeroText
      (fun _ => Uuid.nowV7 0 (List.replicate 10 0) length_zeros)
      (toRecordBatchFrom zeroText [ratioRecord (.i64 2)] ratioLayout none)).map
        LogRecord.attributes = [[⟨"ratio".toList, .f64 0x4000000000000000⟩]] := by decide +kernel
  obtain ⟨x, xs, hperm, -, heq⟩ := List.forall₂_cons_left_iff.mp h
  rw [heq, List.map_cons] at hback
  rw [(List.cons.inj hback).1] at hperm
  have hsame := List.singleton_perm_singleton.mp hperm
  exact absurd (congrArg Attr.value hsame) (by simp)

end LogLess.Schema
