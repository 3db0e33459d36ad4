import LogLess.Config
import LogLess.Lib.Civil
import LogLess.Lib.Text

/-!
# Partition keys and the layout of the store

A file of the store is at
`tenant=<t>/index=<i>/hour=YYYY-MM-DDTHH/level=<bucket>/node=<writer>/<file>`. A path is
the list of its components below the store's directory; the names that go into it are
checked by the configuration and hold no separator. The path tells the key: `keyOfPath`
reads it back.
-/

namespace LogLess

def nanosPerHour : ℕ := 3600 * 1000000000

/-- `(tenant, index, event hour, level bucket, node)`. -/
structure PartitionKey where
  tenant : Text
  index : Text
  epochHour : ℕ
  bucket : Text
  node : Text
deriving DecidableEq

/-- Components below the store's directory. -/
abbrev Path := List Text

def formatHour (epochHour : ℕ) : Text :=
  let (y, m, d) := Civil.civilFromDays (epochHour / 24 : ℕ)
  Decimal.padded 4 y.toNat ++ '-' :: (Decimal.padded 2 m ++ '-' :: (Decimal.padded 2 d
    ++ 'T' :: Decimal.padded 2 (epochHour % 24)))

namespace PartitionKey

/-- Every writer's files for the partition: what retention deletes. -/
def levelDir (k : PartitionKey) : Path :=
  ["tenant=".toList ++ k.tenant, "index=".toList ++ k.index,
    "hour=".toList ++ formatHour k.epochHour, "level=".toList ++ k.bucket]

def dir (k : PartitionKey) : Path := k.levelDir ++ ["node=".toList ++ k.node]

/-- The derived order: field by field. -/
def le (a b : PartitionKey) : Bool :=
  ((compare a.tenant b.tenant).then <| (compare a.index b.index).then <|
    (compare a.epochHour b.epochHour).then <| (compare a.bucket b.bucket).then <|
    compare a.node b.node).isLE

end PartitionKey

/-! ## The key of a path -/

/-- `parse_hour`. The days are an `i64` and the hours a `u64`, and both wrap. -/
def parseHour (s : Text) : Option ℕ := do
  let (date, hour) ← Text.splitOnce 'T' s
  match Text.splitAt '-' date with
  | [year, month, day] =>
    let y ← (Decimal.parse year).filter fun y => y < 2 ^ 63
    let m ← (Decimal.parse month).filter fun m => 1 ≤ m ∧ m ≤ 12
    let d ← (Decimal.parse day).filter fun d => 1 ≤ d ∧ d ≤ 31
    let h ← (Decimal.parse hour).filter fun h => h ≤ 23
    let days := (Civil.daysFromCivil y m d).bmod (2 ^ 64)
    if days < 0 then none else some ((days.toNat * 24 + h) % 2 ^ 64)
  | _ => none

/-- `key_of_path`: the five directories a file is in. -/
def keyOfPath (path : Path) : Option PartitionKey :=
  match path.dropLast.reverse.take 5 with
  | [node, level, hour, index, tenant] => do
    let tenant ← ("tenant=".toList.isPrefixOf? tenant).filter validIdent
    let index ← ("index=".toList.isPrefixOf? index).filter validIdent
    let node ← ("node=".toList.isPrefixOf? node).filter validIdent
    let epochHour ← ("hour=".toList.isPrefixOf? hour).bind parseHour
    let bucket ← ("level=".toList.isPrefixOf? level).filter fun b => b != []
    return ⟨tenant, index, epochHour, bucket, node⟩
  | _ => none

/-! ## Paths tell partitions apart -/

theorem notMem_padded {c : Char} (hc : c.isDigit = false) (width n : ℕ) :
    c ∉ Decimal.padded width n := by
  intro hmem
  rw [Decimal.isDigit_of_mem_padded hmem] at hc
  cases hc

theorem formatHour_inj {a b : ℕ} : formatHour a = formatHour b ↔ a = b := by
  refine ⟨fun h => ?_, fun h => by rw [h]⟩
  have hdash : ∀ width n, '-' ∉ Decimal.padded width n := notMem_padded (by decide)
  have hT : ∀ width n, 'T' ∉ Decimal.padded width n := notMem_padded (by decide)
  obtain ⟨y, m, d, hya⟩ : ∃ y m d, Civil.civilFromDays (a / 24 : ℕ) = (y, m, d) := ⟨_, _, _, rfl⟩
  obtain ⟨y', m', d', hyb⟩ : ∃ y m d, Civil.civilFromDays (b / 24 : ℕ) = (y, m, d) :=
    ⟨_, _, _, rfl⟩
  have hy := Civil.civilFromDays_year_nonneg (show -719468 ≤ ((a / 24 : ℕ) : ℤ) by omega)
  have hy' := Civil.civilFromDays_year_nonneg (show -719468 ≤ ((b / 24 : ℕ) : ℤ) by omega)
  rw [hya] at hy
  rw [hyb] at hy'
  -- the fields, read back from the text
  simp only [formatHour, hya, hyb] at h
  have hdate := congrArg (Text.splitAt '-') h
  simp only [Text.splitAt_append (hdash _ _), List.cons.injEq] at hdate
  obtain ⟨hyear, hmonth, hrest⟩ := hdate
  have hrest' : Decimal.padded 2 d ++ 'T' :: Decimal.padded 2 (a % 24)
      = Decimal.padded 2 d' ++ 'T' :: Decimal.padded 2 (b % 24) := by
    rw [Text.splitAt_of_notMem, Text.splitAt_of_notMem, List.cons.injEq] at hrest
    · exact hrest.1
    · simp [hdash]
    · simp [hdash]
  have hday := congrArg (Text.splitAt 'T') hrest'
  simp only [Text.splitAt_append (hT _ _), Text.splitAt_of_notMem (hT _ _),
    List.cons.injEq, Decimal.padded_inj, and_true] at hday
  rw [Decimal.padded_inj] at hyear hmonth
  have hdays : Civil.civilFromDays (a / 24 : ℕ) = Civil.civilFromDays (b / 24 : ℕ) := by
    rw [hya, hyb, show y = y' by simp only at hy hy'; omega, hmonth, hday.1]
  have ha := Civil.daysFromCivil_civilFromDays (show -719468 ≤ ((a / 24 : ℕ) : ℤ) by omega)
  have hb := Civil.daysFromCivil_civilFromDays (show -719468 ≤ ((b / 24 : ℕ) : ℤ) by omega)
  rw [hdays, hb] at ha
  omega

/-- A directory belongs to one partition. -/
theorem PartitionKey.dir_inj {a b : PartitionKey} : a.dir = b.dir ↔ a = b := by
  refine ⟨fun h => ?_, fun h => by rw [h]⟩
  obtain ⟨tenant, index, epochHour, bucket, node⟩ := a
  obtain ⟨tenant', index', epochHour', bucket', node'⟩ := b
  simp only [PartitionKey.dir, PartitionKey.levelDir, List.cons_append, List.nil_append,
    List.cons.injEq, List.append_cancel_left_eq, formatHour_inj, and_true] at h
  obtain ⟨rfl, rfl, rfl, rfl, rfl⟩ := h
  rfl

/-! ## The key read back -/

/-- The parts of an hour's text: the date of its day, and the hour of the day. -/
theorem formatHour_parts (epochHour : ℕ) :
    ∃ y m d : ℕ, Civil.civilFromDays (epochHour / 24 : ℕ) = ((y : ℤ), m, d) ∧
      Text.splitOnce 'T' (formatHour epochHour) = some (Decimal.padded 4 y
        ++ '-' :: (Decimal.padded 2 m ++ '-' :: Decimal.padded 2 d),
        Decimal.padded 2 (epochHour % 24)) ∧
      Text.splitAt '-' (Decimal.padded 4 y ++ '-' :: (Decimal.padded 2 m
        ++ '-' :: Decimal.padded 2 d))
        = [Decimal.padded 4 y, Decimal.padded 2 m, Decimal.padded 2 d] := by
  have hdash : ∀ width n, '-' ∉ Decimal.padded width n := notMem_padded (by decide)
  have hT : ∀ width n, 'T' ∉ Decimal.padded width n := notMem_padded (by decide)
  have hyear := Civil.civilFromDays_year_nonneg (show -719468 ≤ ((epochHour / 24 : ℕ) : ℤ) by omega)
  obtain ⟨y, m, d, hciv⟩ : ∃ y m d, Civil.civilFromDays (epochHour / 24 : ℕ) = (y, m, d) :=
    ⟨_, _, _, rfl⟩
  rw [hciv] at hyear
  obtain ⟨year, rfl⟩ : ∃ year : ℕ, y = year := ⟨y.toNat, by simp only at hyear; omega⟩
  refine ⟨year, m, d, hciv, ?_, ?_⟩
  · have hformat : formatHour epochHour
        = (Decimal.padded 4 year ++ '-' :: (Decimal.padded 2 m ++ '-' :: Decimal.padded 2 d))
          ++ 'T' :: Decimal.padded 2 (epochHour % 24) := by
      simp only [formatHour, hciv, Int.toNat_natCast, List.append_assoc, List.cons_append]
    have hdate : 'T' ∉ Decimal.padded 4 year
        ++ '-' :: (Decimal.padded 2 m ++ '-' :: Decimal.padded 2 d) := by
      simp [hT]
    rw [hformat, Text.splitOnce_append hdate]
  · rw [Text.splitAt_append (hdash _ _), Text.splitAt_append (hdash _ _),
      Text.splitAt_of_notMem (hdash _ _)]

theorem parseHour_formatHour {epochHour : ℕ} (h : epochHour < 2 ^ 64) :
    parseHour (formatHour epochHour) = some epochHour := by
  have hz : -719468 ≤ ((epochHour / 24 : ℕ) : ℤ) := by omega
  have hday := Civil.daysFromCivil_civilFromDays hz
  obtain ⟨hm, hd, hy⟩ := Civil.civilFromDays_bounds hz
  obtain ⟨y, m, d, hciv, hsplit, hparts⟩ := formatHour_parts epochHour
  rw [hciv] at hday hm hd hy
  simp only at hday hm hd hy
  have hpos : ¬ ((epochHour / 24 : ℕ) : ℤ) < 0 := by omega
  have hwrap : ((epochHour / 24 : ℕ) : ℤ).bmod (2 ^ 64) = (epochHour / 24 : ℕ) :=
    Int.bmod_eq_of_le (by omega) (by omega)
  unfold parseHour
  simp only [hsplit, Option.bind_eq_bind, Option.bind_some, hparts,
    Decimal.parse_padded 4 (show y < 2 ^ 64 by omega),
    Decimal.parse_padded 2 (show m < 2 ^ 64 by omega),
    Decimal.parse_padded 2 (show d < 2 ^ 64 by omega),
    Decimal.parse_padded 2 (show epochHour % 24 < 2 ^ 64 by omega)]
  rw [Option.filter_some_pos (by simpa using by omega), Option.bind_some,
    Option.filter_some_pos (by simpa using hm), Option.bind_some,
    Option.filter_some_pos (by simpa using hd), Option.bind_some,
    Option.filter_some_pos (by simpa using by omega), Option.bind_some, hday,
    hwrap, if_neg hpos]
  rw [Option.some.injEq, Int.toNat_natCast]
  omega

/-- A key whose names and hour a path can carry. -/
structure PartitionKey.Valid (k : PartitionKey) : Prop where
  tenant : validIdent k.tenant = true
  index : validIdent k.index = true
  node : validIdent k.node = true
  bucket : k.bucket ≠ []
  epochHour : k.epochHour < 2 ^ 63

theorem PartitionKey.Valid.epochHour_lt {k : PartitionKey} (h : k.Valid) : k.epochHour < 2 ^ 64 :=
  h.epochHour.trans (by decide)

theorem keyOfPath_of_dirs {path : Path} {node level hour index tenant : Text}
    (h : path.dropLast.reverse.take 5 = [node, level, hour, index, tenant]) :
    keyOfPath path = do
      let tenant ← ("tenant=".toList.isPrefixOf? tenant).filter validIdent
      let index ← ("index=".toList.isPrefixOf? index).filter validIdent
      let node ← ("node=".toList.isPrefixOf? node).filter validIdent
      let epochHour ← ("hour=".toList.isPrefixOf? hour).bind parseHour
      let bucket ← ("level=".toList.isPrefixOf? level).filter fun b => b != []
      return ⟨tenant, index, epochHour, bucket, node⟩ := by
  unfold keyOfPath
  rw [h]

/-- The key of a file is read back from its path, if its names and its hour fit. -/
theorem keyOfPath_dir_of_fits {k : PartitionKey} (htenant : validIdent k.tenant = true)
    (hindex : validIdent k.index = true) (hnode : validIdent k.node = true)
    (hnonempty : k.bucket ≠ []) (hfits : k.epochHour < 2 ^ 64) (name : Text) :
    keyOfPath (k.dir ++ [name]) = some k := by
  have hdirs : (k.dir ++ [name]).dropLast.reverse.take 5
      = ["node=".toList ++ k.node, "level=".toList ++ k.bucket,
        "hour=".toList ++ formatHour k.epochHour, "index=".toList ++ k.index,
        "tenant=".toList ++ k.tenant] := by
    rw [List.dropLast_concat]
    simp only [PartitionKey.dir, PartitionKey.levelDir, List.reverse_cons, List.reverse_nil,
      List.nil_append, List.cons_append, List.take_succ_cons, List.take_zero]
  have hbucket : Option.filter (fun b => b != []) (some k.bucket) = some k.bucket :=
    Option.filter_some_pos (bne_iff_ne.mpr hnonempty)
  have hhour := parseHour_formatHour hfits
  rw [keyOfPath_of_dirs hdirs, Text.isPrefixOf?_append, Option.filter_some_pos htenant,
    Text.isPrefixOf?_append, Option.filter_some_pos hindex, Text.isPrefixOf?_append,
    Option.filter_some_pos hnode, Text.isPrefixOf?_append, Text.isPrefixOf?_append, hbucket,
    Option.bind_some, hhour]
  simp only [Option.bind_eq_bind, Option.bind_some, Option.pure_def]

/-- A file of a partition says which one. -/
theorem keyOfPath_dir {k : PartitionKey} (h : k.Valid) (name : Text) :
    keyOfPath (k.dir ++ [name]) = some k :=
  keyOfPath_dir_of_fits h.tenant h.index h.node h.bucket h.epochHour_lt name

end LogLess
