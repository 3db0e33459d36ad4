import LogLess.Partition

/-!
# What a path has to look like

`key_of_path` undoes `dir`: the hour of every key is read back from its text, and the key
from the path of a file. The other way round it accepts more than `dir` writes. `parse_hour`
takes numbers of any width and with a plus sign, days that the month does not have, and years
whose hours a `u64` does not count, and each of these directories is taken for another one.
`CanonicalHour` says which texts of an hour are the ones that are written.
-/

namespace LogLess

/-- The text of an hour as it is written: digits, a year of four or with no zero in front, a
month, a day and an hour of two, the day one of the month, and the hour one that a `u64`
counts. -/
def canonicalHour (s : Text) : Bool :=
  match Text.splitOnce 'T' s with
  | none => false
  | some (date, hour) =>
    match Text.splitAt '-' date with
    | [year, month, day] =>
      let y := Nat.ofDigitChars 10 year 0
      let m := Nat.ofDigitChars 10 month 0
      let d := Nat.ofDigitChars 10 day 0
      (year ++ month ++ day ++ hour).all Char.isDigit && 4 ≤ year.length
        && (year.length == 4 || year.head? != some '0') && month.length == 2 && day.length == 2
        && hour.length == 2 && d ≤ Civil.daysInMonth y m
        && (Civil.daysFromCivil y m d).toNat * 24 + Nat.ofDigitChars 10 hour 0 < 2 ^ 64
    | _ => false

/-- What `parse_hour` makes of an hour text. -/
theorem parseHour_eq_some {s : Text} {n : ℕ} (h : parseHour s = some n) :
    ∃ year month day hour y m d k, s = year ++ '-' :: (month ++ '-' :: day) ++ 'T' :: hour ∧
      Text.splitOnce 'T' s = some (year ++ '-' :: (month ++ '-' :: day), hour) ∧
      Text.splitAt '-' (year ++ '-' :: (month ++ '-' :: day)) = [year, month, day] ∧
      Decimal.parse year = some y ∧ Decimal.parse month = some m ∧ Decimal.parse day = some d ∧
      Decimal.parse hour = some k ∧ y < 2 ^ 63 ∧ (1 ≤ m ∧ m ≤ 12) ∧ (1 ≤ d ∧ d ≤ 31) ∧ k ≤ 23 ∧
      0 ≤ (Civil.daysFromCivil y m d).bmod (2 ^ 64) ∧
      n = (((Civil.daysFromCivil y m d).bmod (2 ^ 64)).toNat * 24 + k) % 2 ^ 64 := by
  unfold parseHour at h
  obtain ⟨⟨date, hour⟩, hsplit, h⟩ := Option.bind_eq_some_iff.mp h
  simp only at h
  split at h
  · next year month day hparts =>
    obtain ⟨y, hy, h⟩ := Option.bind_eq_some_iff.mp h
    obtain ⟨m, hm, h⟩ := Option.bind_eq_some_iff.mp h
    obtain ⟨d, hd, h⟩ := Option.bind_eq_some_iff.mp h
    obtain ⟨k, hk, h⟩ := Option.bind_eq_some_iff.mp h
    rw [Option.filter_eq_some_iff] at hy hm hd hk
    split at h
    · cases h
    · next hdays =>
      have hdate := Text.eq_of_splitAt_three hparts
      subst hdate
      refine ⟨year, month, day, hour, y, m, d, k, Text.eq_of_splitOnce hsplit, hsplit, hparts, hy.1,
        hm.1, hd.1, hk.1, by simpa using hy.2, by simpa using hm.2, by simpa using hd.2,
        by simpa using hk.2, not_lt.mp hdays, (Option.some.inj h).symm⟩
  · cases h

/-- Digits are parsed as their value. -/
theorem ofDigitChars_of_parse {t : Text} {n : ℕ} (h : Decimal.parse t = some n)
    (hdigits : ∀ c ∈ t, c.isDigit = true) : Nat.ofDigitChars 10 t 0 = n := by
  have hplus : Decimal.stripPlus t = t := by
    unfold Decimal.stripPlus
    split
    · next rest => exact absurd (hdigits '+' (by simp)) (by decide)
    · rfl
  unfold Decimal.parse at h
  simp only [hplus] at h
  split at h
  · exact Option.some.inj h
  · cases h

/-- In year 0 no day is of the epoch. -/
theorem daysFromCivil_zero_neg {m d : ℕ} (hm : 1 ≤ m ∧ m ≤ 12) (hd : d ≤ 31) :
    Civil.daysFromCivil (0 : ℕ) m d < 0 := by
  obtain ⟨hlow, hhigh⟩ := hm
  unfold Civil.daysFromCivil
  interval_cases m <;> simp <;> omega

theorem daysFromCivil_lower (y m d : ℕ) : -865566 ≤ Civil.daysFromCivil y m d := by
  have hera : ∀ z : ℤ, -1 ≤ z → -1 ≤ (if 0 ≤ z then z else z - 399).tdiv 400 := by
    intro z hz
    split
    · next hpos =>
      have := Int.tdiv_nonneg hpos (show (0 : ℤ) ≤ 400 by omega)
      omega
    · have hminus : z = -1 := by omega
      rw [hminus]
      decide
  have hy := hera (if m ≤ 2 then (y : ℤ) - 1 else y) (by split <;> omega)
  unfold Civil.daysFromCivil
  simp only
  omega

/-- A canonical text, part by part. -/
structure Canonical (year month day hour : Text) : Prop where
  digits : ∀ c ∈ year ++ month ++ day ++ hour, c.isDigit = true
  year_width : 4 ≤ year.length ∧ (year.length = 4 ∨ year.head? ≠ some '0')
  widths : month.length = 2 ∧ day.length = 2 ∧ hour.length = 2
  valid : Nat.ofDigitChars 10 day 0
    ≤ Civil.daysInMonth (Nat.ofDigitChars 10 year 0 : ℕ) (Nat.ofDigitChars 10 month 0)
  fits : (Civil.daysFromCivil (Nat.ofDigitChars 10 year 0 : ℕ) (Nat.ofDigitChars 10 month 0)
    (Nat.ofDigitChars 10 day 0)).toNat * 24 + Nat.ofDigitChars 10 hour 0 < 2 ^ 64

theorem canonicalHour_iff {s date hour year month day : Text}
    (hsplit : Text.splitOnce 'T' s = some (date, hour))
    (hparts : Text.splitAt '-' date = [year, month, day]) :
    canonicalHour s = true ↔ Canonical year month day hour := by
  unfold canonicalHour
  rw [hsplit]
  simp only [hparts, Bool.and_eq_true, List.all_eq_true, decide_eq_true_eq, Bool.or_eq_true,
    beq_iff_eq, bne_iff_ne]
  constructor
  · rintro ⟨⟨⟨⟨⟨⟨⟨hdigits, hfour⟩, hlead⟩, hmonth⟩, hday⟩, hhour⟩, hvalid⟩, hfits⟩
    exact ⟨hdigits, ⟨hfour, hlead⟩, ⟨hmonth, hday, hhour⟩, hvalid, hfits⟩
  · rintro ⟨hdigits, ⟨hfour, hlead⟩, ⟨hmonth, hday, hhour⟩, hvalid, hfits⟩
    exact ⟨⟨⟨⟨⟨⟨⟨hdigits, hfour⟩, hlead⟩, hmonth⟩, hday⟩, hhour⟩, hvalid⟩, hfits⟩

/-- The text of an hour is canonical, and a canonical text is that of its hour. -/
theorem formatHour_eq_iff {s : Text} {n : ℕ} (h : parseHour s = some n) :
    formatHour n = s ↔ canonicalHour s = true := by
  obtain ⟨year, month, day, hour, y, m, d, k, hs, hsplit, hparts, hy, hm, hd, hk, hyb, hmb, hdb,
    hkb, hdays, hn⟩ := parseHour_eq_some h
  constructor
  · rintro rfl
    have hlt : n < 2 ^ 64 := by
      rw [hn]
      exact Nat.mod_lt _ (by omega)
    clear hs hsplit hparts hy hm hd hk hyb hmb hdb hkb hdays hn
    obtain ⟨y', m', d', hciv, hsplit', hparts'⟩ := formatHour_parts n
    have hz : -719468 ≤ ((n / 24 : ℕ) : ℤ) := by omega
    have hback := Civil.daysFromCivil_civilFromDays hz
    have hvalid := Civil.civilFromDays_valid hz
    obtain ⟨hmb', hdb', -⟩ := Civil.civilFromDays_bounds hz
    rw [hciv] at hback hvalid hmb' hdb'
    simp only at hback hvalid hmb' hdb'
    have hlm := Decimal.length_padded (show 0 < 2 by omega) (show m' < 10 ^ 2 by omega)
    have hld := Decimal.length_padded (show 0 < 2 by omega) (show d' < 10 ^ 2 by omega)
    have hlk := Decimal.length_padded (show 0 < 2 by omega) (show n % 24 < 10 ^ 2 by omega)
    have hly : 4 ≤ (Decimal.padded 4 y').length := by
      rw [Decimal.padded, List.length_append, List.length_replicate]
      omega
    have hlead : (Decimal.padded 4 y').length = 4 ∨ (Decimal.padded 4 y').head? ≠ some '0' := by
      rcases Nat.eq_or_lt_of_le hly with heq | hlong
      · exact .inl heq.symm
      · exact .inr (Decimal.head?_padded hlong (by omega))
    refine (canonicalHour_iff hsplit' hparts').mpr ⟨?_, ⟨hly, hlead⟩, ⟨hlm, hld, hlk⟩, ?_, ?_⟩
    · intro c hc
      simp only [List.mem_append] at hc
      rcases hc with ((hc | hc) | hc) | hc <;> exact Decimal.isDigit_of_mem_padded hc
    · simp only [Decimal.ofDigitChars_padded]
      exact hvalid
    · simp only [Decimal.ofDigitChars_padded, hback]
      omega
  · intro hcanonical
    obtain ⟨hdigits, ⟨hfour, hlead⟩, ⟨hmonth, hday, hhour⟩, hvalid, hfits⟩ :=
      (canonicalHour_iff hsplit hparts).mp hcanonical
    have hyear' : ∀ c ∈ year, c.isDigit = true := fun c hc => hdigits c (by simp [hc])
    have hmonth' : ∀ c ∈ month, c.isDigit = true := fun c hc => hdigits c (by simp [hc])
    have hday' : ∀ c ∈ day, c.isDigit = true := fun c hc => hdigits c (by simp [hc])
    have hhour' : ∀ c ∈ hour, c.isDigit = true := fun c hc => hdigits c (by simp [hc])
    rw [ofDigitChars_of_parse hy hyear', ofDigitChars_of_parse hm hmonth',
      ofDigitChars_of_parse hd hday'] at hvalid hfits
    rw [ofDigitChars_of_parse hk hhour'] at hfits
    have hlower := daysFromCivil_lower y m d
    have hwrap : (Civil.daysFromCivil y m d).bmod (2 ^ 64) = Civil.daysFromCivil y m d :=
      Int.bmod_eq_of_le (by omega) (by omega)
    rw [hwrap] at hdays hn
    rw [Nat.mod_eq_of_lt hfits] at hn
    have hy1 : 1 ≤ y := by
      by_contra hzero
      obtain rfl : y = 0 := by omega
      have := daysFromCivil_zero_neg hmb hdb.2
      omega
    have hciv := Civil.civilFromDays_daysFromCivil (y := y) (by omega) hmb.1 hmb.2 hdb.1 hvalid
    have hdiv : ((n / 24 : ℕ) : ℤ) = Civil.daysFromCivil y m d := by omega
    have hmod : n % 24 = k := by omega
    -- each number is written as it stands in the text
    have htexts : Decimal.padded 4 y = year ∧ Decimal.padded 2 m = month ∧
        Decimal.padded 2 d = day ∧ Decimal.padded 2 k = hour := by
      refine ⟨?_, ?_, ?_, ?_⟩
      · rw [← ofDigitChars_of_parse hy hyear']
        exact Decimal.padded_eq_of_digits hyear' (by decide) hfour hlead
      · rw [← ofDigitChars_of_parse hm hmonth']
        exact Decimal.padded_eq_of_digits hmonth' (by decide) hmonth.ge (.inl hmonth)
      · rw [← ofDigitChars_of_parse hd hday']
        exact Decimal.padded_eq_of_digits hday' (by decide) hday.ge (.inl hday)
      · rw [← ofDigitChars_of_parse hk hhour']
        exact Decimal.padded_eq_of_digits hhour' (by decide) hhour.ge (.inl hhour)
    rw [hs, formatHour, hdiv, hciv, hmod]
    simp only [Int.toNat_natCast, htexts, List.append_assoc, List.cons_append]

/-! ## Paths -/

/-- The text of the hour directory of a path. -/
def hourText (path : Path) : Text := (path.dropLast.reverse[2]?.getD []).drop "hour=".toList.length

/-- A path with a key has five directories. -/
theorem exists_dirs {path : Path} {k : PartitionKey} (h : keyOfPath path = some k) :
    ∃ node level hour index tenant,
      path.dropLast.reverse.take 5 = [node, level, hour, index, tenant] := by
  have hlength : (path.dropLast.reverse.take 5).length = 5 := by
    by_contra hne
    unfold keyOfPath at h
    generalize path.dropLast.reverse.take 5 = dirs at h hne
    match dirs with
    | [] => cases h
    | [_] => cases h
    | [_, _] => cases h
    | [_, _, _] => cases h
    | [_, _, _, _] => cases h
    | [_, _, _, _, _] => exact hne rfl
    | _ :: _ :: _ :: _ :: _ :: _ :: _ => cases h
  generalize path.dropLast.reverse.take 5 = dirs at hlength
  match dirs with
  | [node, level, hour, index, tenant] => exact ⟨node, level, hour, index, tenant, rfl⟩

/-- A path with a key ends in five directories that carry its parts. -/
theorem keyOfPath_eq_some {path : Path} {k : PartitionKey} (h : keyOfPath path = some k) :
    ∃ store hour, path.dropLast = store ++ ["tenant=".toList ++ k.tenant,
        "index=".toList ++ k.index, "hour=".toList ++ hour, "level=".toList ++ k.bucket,
        "node=".toList ++ k.node] ∧ parseHour hour = some k.epochHour ∧ hourText path = hour := by
  obtain ⟨node, level, hour, index, tenant, hdirs⟩ := exists_dirs h
  rw [keyOfPath_of_dirs hdirs] at h
  obtain ⟨tenant', htenant, h⟩ := Option.bind_eq_some_iff.mp h
  obtain ⟨index', hindex, h⟩ := Option.bind_eq_some_iff.mp h
  obtain ⟨node', hnode, h⟩ := Option.bind_eq_some_iff.mp h
  obtain ⟨epochHour, hhour, h⟩ := Option.bind_eq_some_iff.mp h
  obtain ⟨bucket, hbucket, h⟩ := Option.bind_eq_some_iff.mp h
  obtain rfl := Option.some.inj h
  obtain ⟨text, htext, hparse⟩ := Option.bind_eq_some_iff.mp hhour
  rw [Option.filter_eq_some_iff] at htenant hindex hnode hbucket
  rw [List.isPrefixOf?_eq_some_iff_append_eq] at htenant hindex hnode hbucket htext
  have hsplit := List.take_append_drop 5 path.dropLast.reverse
  rw [hdirs] at hsplit
  refine ⟨(path.dropLast.reverse.drop 5).reverse, text, ?_, hparse, ?_⟩
  · rw [htenant.1, hindex.1, hnode.1, hbucket.1, htext]
    have hback := congrArg List.reverse hsplit
    rw [List.reverse_reverse, List.reverse_append] at hback
    simpa only [List.reverse_cons, List.reverse_nil, List.nil_append, List.cons_append,
      List.append_assoc] using hback.symm
  · rw [hourText, ← hsplit, ← htext]
    simp only [List.cons_append, List.getElem?_cons_succ, List.getElem?_cons_zero,
      Option.getD_some, List.drop_left]

/-- What is in front of the five directories does not matter. -/
theorem keyOfPath_append {store dirs : Path} {name : Text} (h : dirs.length = 5) :
    keyOfPath (store ++ dirs ++ [name]) = keyOfPath (dirs ++ [name]) := by
  have htake : (store ++ dirs ++ [name]).dropLast.reverse.take 5
      = (dirs ++ [name]).dropLast.reverse.take 5 := by
    rw [List.dropLast_concat, List.dropLast_concat, List.reverse_append,
      List.take_append_of_le_length (by simp [h])]
  unfold keyOfPath
  rw [htake]

/-- The hour of every key is read back, and the key of every file. A path that has a key is in
the directory of the key exactly when its hour is written as `format_hour` writes it. -/
theorem partition_codec (path : Path) (k : PartitionKey) :
    (∀ epochHour, epochHour * nanosPerHour < 2 ^ 64 →
      parseHour (formatHour epochHour) = some epochHour) ∧
    (∀ (store : Path) (name : Text), validIdent k.tenant = true →
      validIdent k.index = true → validIdent k.node = true → k.bucket ≠ [] →
      k.epochHour < 2 ^ 64 → keyOfPath (store ++ k.dir ++ [name]) = some k) ∧
    (keyOfPath path = some k →
      ((∃ store, path.dropLast = store ++ k.dir) ↔ canonicalHour (hourText path) = true)) := by
  refine ⟨?_, ?_, ?_⟩
  · intro epochHour h
    have hle : epochHour ≤ epochHour * nanosPerHour := by
      unfold nanosPerHour
      omega
    exact parseHour_formatHour (hle.trans_lt h)
  · intro store name htenant hindex hnode hbucket hhour
    have hdirs : k.dir.length = 5 := by
      simp only [PartitionKey.dir, PartitionKey.levelDir, List.length_append, List.length_cons,
        List.length_nil]
    rw [keyOfPath_append hdirs]
    exact keyOfPath_dir_of_fits htenant hindex hnode hbucket hhour name
  · intro h
    obtain ⟨store, hour, hpath, hparse, rfl⟩ := keyOfPath_eq_some h
    rw [← formatHour_eq_iff hparse, hpath]
    simp only [PartitionKey.dir, PartitionKey.levelDir, List.cons_append, List.nil_append]
    constructor
    · rintro ⟨other, hother⟩
      have hdirs := (List.append_inj' hother
        (by simp only [List.length_cons, List.length_nil])).2
      simp only [List.cons.injEq, List.append_cancel_left_eq, and_true, true_and] at hdirs
      exact hdirs.symm
    · intro hformat
      exact ⟨store, by rw [hformat]⟩

theorem partition_codec_file :
    let k : PartitionKey :=
      ⟨"acme".toList, "default".toList, 486123, "warn_plus".toList, "edge-1".toList⟩
    let path := ["data".toList] ++ k.dir ++ ["a.parquet".toList]
    parseHour (formatHour 486123) = some 486123 ∧ keyOfPath path = some k ∧
      canonicalHour (hourText path) = true := by
  intro k path
  have hcodec := partition_codec path k
  have hkey := hcodec.2.1 ["data".toList] "a.parquet".toList (by decide) (by decide) (by decide)
    (by decide) (by decide)
  have hdir : path.dropLast = ["data".toList] ++ k.dir := List.dropLast_concat
  exact ⟨hcodec.1 486123 (by decide), hkey, (hcodec.2.2 hkey).mp ⟨_, hdir⟩⟩

/-- The 31st of February is taken for the 3rd of March. -/
theorem february_is_march :
    keyOfPath ["tenant=acme".toList, "index=default".toList, "hour=2026-02-31T00".toList,
        "level=info".toList, "node=edge-1".toList, "a.parquet".toList]
      = some ⟨"acme".toList, "default".toList, 492360, "info".toList, "edge-1".toList⟩ ∧
    PartitionKey.dir ⟨"acme".toList, "default".toList, 492360, "info".toList, "edge-1".toList⟩
      = ["tenant=acme".toList, "index=default".toList, "hour=2026-03-03T00".toList,
        "level=info".toList, "node=edge-1".toList] := by
  decide +kernel

end LogLess
