import LogLess.Mask
import LogLess.Store.Sightings

/-!
# A part that is restored

A part is a Parquet file that is named after the SHA-256 of its bytes. `verify_part` checks a
fetched file against its name, the inventory and itself, and says where it goes and what its rows
tell about templates.

SHA-256 and the Parquet reader are parameters, so the contents of a file are of any type.
-/

namespace LogLess.Restore

open Store

/-- What the footer of a file says. -/
structure Footer where
  /-- The number of rows and the ranges of their times. -/
  stats : FileStats
  tenant : Option Text
  index : Option Text
  node : Option Text

/-- What is done with the contents of a file. -/
structure Reader (β : Type) where
  sha256 : β → ByteArr 32
  /-- In bytes. -/
  len : β → ℕ
  footer : β → Except Text Footer
  /-- The rows of all row groups, as far as they all decode. -/
  decode : β → Except Text (List LogRecord)

/-- What the inventory says one part is. -/
structure Expected where
  size : ℕ
  rows : ℕ

/-- Why one part was refused. -/
inductive Problem where
  | hashMismatch (actual : Text)
  | sizeMismatch (expected actual : ℕ)
  | rowsMismatch (expected footer : ℕ)
  | unreadable (why : Text)
  | decodedRowsMismatch (footer decoded : ℕ)

/-- `Display` of a problem. -/
def Problem.text : Problem → Text
  | .hashMismatch actual => "sha256 of the bytes is ".toList ++ actual ++ ", not the name".toList
  | .sizeMismatch expected actual =>
    Decimal.ofNat actual ++ " bytes, inventory says ".toList ++ Decimal.ofNat expected
  | .rowsMismatch expected footer =>
    "footer has ".toList ++ Decimal.ofNat footer ++ " rows, inventory says ".toList
      ++ Decimal.ofNat expected
  | .unreadable why => "unreadable Parquet: ".toList ++ why
  | .decodedRowsMismatch footer decoded =>
    "footer has ".toList ++ Decimal.ofNat footer ++ " rows but ".toList ++ Decimal.ofNat decoded
      ++ " decode".toList

/-! ## Names -/

def parquetSuffix : Text := ".parquet".toList

def isHexByte (c : Char) : Bool := ('0' ≤ c && c ≤ '9') || ('a' ≤ c && c ≤ 'f')

/-- `valid_name`: 64 digits of lower-case hex and the suffix. -/
def validName (name : Text) : Bool :=
  Text.len name == 72 && parquetSuffix.isSuffixOf name
    && (name.take (name.length - parquetSuffix.length)).all isHexByte

/-- `trim_end_matches` of a string, which takes off every copy at the end, with fuel. -/
def trimEndStr (suffix : Text) : ℕ → Text → Text
  | 0, t => t
  | fuel + 1, t =>
    match suffix.reverse.isPrefixOf? t.reverse with
    | some rest => trimEndStr suffix fuel rest.reverse
    | none => t

/-- The hash a name is made of. -/
def hashOfName (name : Text) : Text := trimEndStr parquetSuffix name.length name

theorem hashOfName_append {name : Text} (h : validName name = true) :
    hashOfName name ++ parquetSuffix = name := by
  rw [validName, Bool.and_eq_true, Bool.and_eq_true] at h
  obtain ⟨⟨hlen, hsuffix⟩, hhex⟩ := h
  obtain ⟨hash, rfl⟩ := List.isSuffixOf_iff_suffix.mp hsuffix
  have hlast : parquetSuffix.reverse.isPrefixOf? hash.reverse = none := by
    rw [List.length_append, Nat.add_sub_cancel, List.take_left] at hhex
    cases hr : hash.reverse with
    | nil => rfl
    | cons c rest =>
      have hc : isHexByte c = true := by
        refine List.all_eq_true.mp hhex c (List.mem_reverse.mp ?_)
        rw [hr]
        exact List.mem_cons_self
      have hne : 't' ≠ c := by
        intro heq
        rw [← heq] at hc
        exact absurd hc (by decide)
      show (if 't' == c then _ else none) = none
      rw [if_neg (by simpa using hne)]
  have hstop : ∀ fuel, trimEndStr parquetSuffix fuel hash = hash := by
    intro fuel
    cases fuel with
    | zero => rfl
    | succ fuel => rw [trimEndStr, hlast]
  have hfuel : (hash ++ parquetSuffix).length = hash.length + 7 + 1 := by
    rw [List.length_append]
    rfl
  rw [hashOfName, hfuel, trimEndStr, List.reverse_append, Text.isPrefixOf?_append]
  show trimEndStr _ _ hash.reverse.reverse ++ _ = _
  rw [List.reverse_reverse, hstop]

/-! ## What the rows tell -/

structure TemplateAcc where
  count : ℕ
  firstSecs : ℕ
  lastSecs : ℕ
  exemplar : List Text

/-- What the rows of restored parts say about templates. -/
structure Derived where
  templates : List (ℕ × TemplateAcc)
  sightings : List (SightingKey × ℕ × ℤ × ℤ)
  /-- Rows for each template id, or none. -/
  rowsByTemplate : List (Option ℕ × ℕ)

namespace Derived

def empty : Derived := ⟨[], [], []⟩

/-- One row of a part. -/
def addRow (tenant index : Text) (d : Derived) (r : LogRecord) : Derived :=
  let d := { d with
    rowsByTemplate := Assoc.insert d.rowsByTemplate r.templateId
      ((Assoc.get d.rowsByTemplate r.templateId).getD 0 + 1) }
  match r.templateId with
  | none => d
  | some id =>
    let secs := r.observedUnixNano / 10 ^ 9
    let t := (Assoc.get d.templates id).getD ⟨0, secs, secs, (Mask.maskLine r.body).1⟩
    let nanos := toI64 r.observedUnixNano
    let at_ := (tenant, index, id, r.service)
    let s := (Assoc.get d.sightings at_).getD (0, nanos, nanos)
    { d with
      templates := Assoc.insert d.templates id
        ⟨t.count + 1, min t.firstSecs secs, max t.lastSecs secs, t.exemplar⟩
      sightings := Assoc.insert d.sightings at_ (s.1 + 1, min s.2.1 nanos, max s.2.2 nanos) }

/-- One template of another part. -/
def mergeTemplate (templates : List (ℕ × TemplateAcc)) (other : ℕ × TemplateAcc) :
    List (ℕ × TemplateAcc) :=
  match Assoc.get templates other.1 with
  | some mine => Assoc.insert templates other.1
      ⟨mine.count + other.2.count, min mine.firstSecs other.2.firstSecs,
        max mine.lastSecs other.2.lastSecs, mine.exemplar⟩
  | none => Assoc.insert templates other.1 other.2

def mergeSighting (sightings : List (SightingKey × ℕ × ℤ × ℤ))
    (other : SightingKey × ℕ × ℤ × ℤ) : List (SightingKey × ℕ × ℤ × ℤ) :=
  let (at_, n, lo, hi) := other
  let e := (Assoc.get sightings at_).getD (0, lo, hi)
  Assoc.insert sightings at_ (e.1 + n, min e.2.1 lo, max e.2.2 hi)

def mergeRows (rows : List (Option ℕ × ℕ)) (other : Option ℕ × ℕ) : List (Option ℕ × ℕ) :=
  Assoc.insert rows other.1 ((Assoc.get rows other.1).getD 0 + other.2)

def merge (d other : Derived) : Derived where
  templates := other.templates.foldl mergeTemplate d.templates
  sightings := other.sightings.foldl mergeSighting d.sightings
  rowsByTemplate := other.rowsByTemplate.foldl mergeRows d.rowsByTemplate

end Derived

/-! ## Verification -/

/-- The tenant, the index and the node that a part is for. A name in a footer that could not be a
directory is not used. -/
structure Scope where
  tenant : Text
  index : Text
  node : Text

def scopeOf (tenancy : Tenancy) (footer : Footer) : Scope where
  tenant := (footer.tenant.filter validIdent).getD tenancy.tenant
  index := (footer.index.filter validIdent).getD
    ((tenancy.defaultIndexOf tenancy.tenant).getD defaultIndex)
  node := (footer.node.filter validIdent).getD tenancy.node

/-- The partition of an hour and a severity. -/
def Scope.key (tenancy : Tenancy) (s : Scope) (epochHour : ℕ) (severity : Severity) :
    PartitionKey where
  tenant := s.tenant
  index := s.index
  epochHour := epochHour
  bucket :=
    let buckets := (tenancy.buckets s.tenant s.index).getD tenancy.defaultBuckets
    ((buckets.bucketFor severity).map LevelBucket.name).getD []
  node := s.node

def Scope.rowKey (tenancy : Tenancy) (s : Scope) (r : LogRecord) : PartitionKey :=
  s.key tenancy (r.timestampUnixNano / nanosPerHour) r.severity

/-- A part is placed by its first row. -/
def Scope.partKey (tenancy : Tenancy) (s : Scope) (rows : List LogRecord) : PartitionKey :=
  (rows.head?.map (s.rowKey tenancy)).getD (s.key tenancy 0 ⟨0⟩)

/-- A part that passed every check. -/
structure Verified where
  rows : ℕ
  bytes : ℕ
  key : PartitionKey
  /-- Rows of the part fall in more than one partition. -/
  multiPartition : Bool
  derived : Derived

section

variable {β : Type} (reader : Reader β) (tenancy : Tenancy)

/-- What is found in a file whose rows decode. -/
def verified (b : β) (footer : Footer) (rows : List LogRecord) : Verified :=
  let s := scopeOf tenancy footer
  let key := s.partKey tenancy rows
  { rows := footer.stats.rows
    bytes := reader.len b
    key := key
    multiPartition := rows.any fun r => s.rowKey tenancy r != key
    derived := rows.foldl (Derived.addRow s.tenant s.index) .empty }

/-- `verify_part`: checks one fetched file against its name and the inventory. -/
def verifyPart (b : β) (name : Text) (expected : Option Expected) : Except Problem Verified :=
  let actual := simple (reader.sha256 b).1
  if actual ≠ hashOfName name then .error (.hashMismatch actual)
  else
    match expected.filter fun e => e.size ≠ reader.len b with
    | some e => .error (.sizeMismatch e.size (reader.len b))
    | none =>
      match reader.footer b with
      | .error why => .error (.unreadable why)
      | .ok footer =>
        match expected.filter fun e => e.rows ≠ footer.stats.rows with
        | some e => .error (.rowsMismatch e.rows footer.stats.rows)
        | none =>
          match reader.decode b with
          | .error why => .error (.unreadable why)
          | .ok rows =>
            if rows.length ≠ footer.stats.rows then
              .error (.decodedRowsMismatch footer.stats.rows rows.length)
            else .ok (verified reader tenancy b footer rows)

/-- What a part that passes is. -/
structure Passes (b : β) (name : Text) (expected : Option Expected) (v : Verified) : Prop where
  hash : simple (reader.sha256 b).1 = hashOfName name
  size : ∀ e ∈ expected, e.size = reader.len b
  count : ∀ e ∈ expected, e.rows = v.rows
  found : ∃ footer rows, reader.footer b = .ok footer ∧ reader.decode b = .ok rows ∧
    rows.length = footer.stats.rows ∧ v = verified reader tenancy b footer rows

variable {reader tenancy}

theorem passes_of_verifyPart {b : β} {name : Text} {expected : Option Expected} {v : Verified}
    (h : verifyPart reader tenancy b name expected = .ok v) :
    Passes reader tenancy b name expected v := by
  have hall : ∀ {p : Expected → Bool}, expected.filter p = none → ∀ e ∈ expected, p e = false := by
    intro p hp e he
    rw [Option.filter_eq_none_iff] at hp
    exact Bool.eq_false_iff.mpr (hp e he)
  unfold verifyPart at h
  simp only at h
  split at h
  · cases h
  · next hhash =>
    split at h
    · cases h
    · next hsize =>
      split at h
      · cases h
      · next footer hfooter =>
        split at h
        · cases h
        · next hcount =>
          split at h
          · cases h
          · next rows hrows =>
            split at h
            · cases h
            · next hlen =>
              cases h
              refine ⟨not_not.mp hhash, fun e he => ?_, fun e he => ?_, footer, rows, hfooter,
                hrows, not_not.mp hlen, rfl⟩
              · simpa using hall hsize e he
              · show e.rows = footer.stats.rows
                simpa using hall hcount e he

end

end LogLess.Restore
