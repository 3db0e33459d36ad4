import LogLess.Partition
import LogLess.S3.SigV4

/-!
# Dates of the HTTP headers

The calendar is written down three times: for the hours of partitions (`Civil`), for the dates of
HTTP headers and for those of signatures. The one for headers takes any year that fits an `i64`,
and `parseHttpDateChecked` is `none` where its arithmetic on 64 bits goes over.
-/

namespace LogLess.S3

/-! ## The calendar of the headers -/

/-- `days_from_civil` of the headers. -/
def httpDaysFromCivil (y : ℤ) (m d : ℕ) : ℤ :=
  let y := if m ≤ 2 then y - 1 else y
  let era := (if 0 ≤ y then y else y - 399).tdiv 400
  let yoe := y - era * 400
  let mp : ℤ := (((m + 9) % 12 : ℕ) : ℤ)
  let doy := (153 * mp + 2).tdiv 5 + d - 1
  let doe := yoe * 365 + yoe.tdiv 4 - yoe.tdiv 100 + doy
  era * 146097 + doe - 719468

/-- An operation on `i64` that does not go over. -/
def checked (n : ℤ) : Option ℤ := if -2 ^ 63 ≤ n ∧ n < 2 ^ 63 then some n else none

/-- The same with every operation checked that may go over. The year of the era has three digits,
so what is made of it does not. -/
def checkedDays (y : ℤ) (m d : ℕ) : Option ℤ := do
  let y ← (if m ≤ 2 then checked (y - 1) else some y : Option ℤ)
  let floor ← (if 0 ≤ y then some y else checked (y - 399) : Option ℤ)
  let era := floor.tdiv 400
  let start ← checked (era * 400)
  let yoe ← checked (y - start)
  let mp : ℤ := (((m + 9) % 12 : ℕ) : ℤ)
  let doy := (153 * mp + 2).tdiv 5 + d - 1
  let doe := yoe * 365 + yoe.tdiv 4 - yoe.tdiv 100 + doy
  let first ← checked (era * 146097)
  let sum ← checked (first + doe)
  checked (sum - 719468)

/-- An operation on `u64` that does not go over. -/
def checkedU64 (n : ℕ) : Option ℕ := if n < 2 ^ 64 then some n else none

/-- The seconds of a date; a day before 1970 has none. -/
def checkedSecs (days : ℤ) (h mi s : ℕ) : Option (Option ℕ) :=
  if days < 0 then some none
  else do
    let secs ← checkedU64 (days.toNat * 86400)
    let secs ← checkedU64 (secs + h * 3600)
    let secs ← checkedU64 (secs + mi * 60)
    let secs ← checkedU64 (secs + s)
    return some secs

/-! ## Reading a header -/

/-- The numbers in a header. -/
structure DateFields where
  year : ℤ
  month : ℕ
  day : ℕ
  hour : ℕ
  minute : ℕ
  second : ℕ
deriving DecidableEq

/-- `parse_http_date` up to its arithmetic. -/
def dateFields (v : Text) : Option DateFields :=
  match Text.splitWhitespace v with
  | [_, day, month, year, time, zone] => do
    guard (zone = "GMT".toList)
    let month ← months.findIdx? (· = month)
    let day ← (Decimal.parse day).filter fun d => 1 ≤ d ∧ d ≤ 31
    let year ← Decimal.parseInt year
    match Text.splitAt ':' time with
    | [h, m, s] => do
      let h ← Decimal.parse h
      let m ← Decimal.parse m
      let s ← Decimal.parse s
      guard (h ≤ 23 ∧ m ≤ 59 ∧ s ≤ 60)
      return ⟨year, month + 1, day, h, m, s⟩
    | _ => none
  | _ => none

/-- `parse_http_date`, and `none` where its arithmetic goes over. -/
def parseHttpDateChecked (v : Text) : Option (Option ℕ) :=
  match dateFields v with
  | none => some none
  | some f => (checkedDays f.year f.month f.day).bind fun days =>
    checkedSecs days f.hour f.minute f.second

/-! ## The calendar of the signatures -/

/-- The days in `to_unix` of a year and a month that are counted from March. -/
def isoMarchDays (y m d : ℕ) : ℕ :=
  let era := y / 400
  let yoe := y - era * 400
  let doy := (153 * m + 2) / 5 + d - 1
  let doe := yoe * 365 + yoe / 4 - yoe / 100 + doy
  era * 146097 + doe - 719468

/-- The days in `to_unix`. -/
def isoDays (y mo d : ℕ) : ℕ :=
  let (y, m) := if mo ≤ 2 then (y - 1, mo + 9) else (y, mo - 3)
  isoMarchDays y m d

/-- The date in `format_iso_basic`. -/
def isoCivil (days : ℤ) : ℤ × ℤ × ℤ :=
  let z := days + 719468
  let era := z / 146097
  let doe := z % 146097
  let yoe := (doe - doe / 1460 + doe / 36524 - doe / 146096) / 365
  let doy := doe - (365 * yoe + yoe / 4 - yoe / 100)
  let mp := (5 * doy + 2) / 153
  let d := doy - (153 * mp + 2) / 5 + 1
  let m := if mp < 10 then mp + 3 else mp - 9
  (yoe + era * 400 + if m ≤ 2 then 1 else 0, m, d)

/-! ## The three calendars agree -/

/-- Division by 400 that rounds down, as the code writes it. -/
theorem tdiv_floor (y : ℤ) : (if 0 ≤ y then y else y - 399).tdiv 400 = y / 400 := by
  split
  · next h => exact Int.tdiv_eq_ediv_of_nonneg h
  · next h =>
    have hneg : y - 399 = -(399 - y) := by omega
    rw [hneg, Int.neg_tdiv, Int.tdiv_eq_ediv_of_nonneg (by omega)]
    omega

/-- The years that begin in March: the year of the era, the day of the era, and the day of the
date. -/
structure EraDay (y : ℤ) (m d : ℕ) (march : ℤ) (yoe doe : ℕ) : Prop where
  march_eq : (if m ≤ 2 then y - 1 else y) = march
  yoe_eq : march - march / 400 * 400 = yoe
  yoe_lt : yoe < 400
  doe_eq : (yoe : ℤ) * 365 + (yoe : ℤ).tdiv 4 - (yoe : ℤ).tdiv 100
    + ((153 * (((m + 9) % 12 : ℕ) : ℤ) + 2).tdiv 5 + d - 1) = doe
  doe_lt : doe < 146200
  day : Civil.daysFromCivil y m d = march / 400 * 146097 + doe - 719468

theorem exists_eraDay (y : ℤ) {m d : ℕ} (hm : 1 ≤ m ∧ m ≤ 12) (hd : 1 ≤ d ∧ d ≤ 31) :
    ∃ march yoe doe, EraDay y m d march yoe doe := by
  obtain ⟨march, hmarch⟩ : ∃ march, (if m ≤ 2 then y - 1 else y) = march := ⟨_, rfl⟩
  obtain ⟨yoe, hyoe⟩ : ∃ yoe : ℕ, march - march / 400 * 400 = yoe :=
    ⟨(march - march / 400 * 400).toNat, by omega⟩
  have hyoe400 : yoe < 400 := by omega
  have hyoe' : (march - march / 400 * 400).toNat = yoe := by omega
  obtain ⟨mp, hmp⟩ : ∃ mp, (m + 9) % 12 = mp := ⟨_, rfl⟩
  have hmp' : (if 2 < m then m - 3 else m + 9) = mp := by
    split <;> omega
  refine ⟨march, yoe, yoe * 365 + yoe / 4 - yoe / 100 + ((153 * mp + 2) / 5 + d - 1), hmarch,
    hyoe, hyoe400, ?_, by omega, ?_⟩
  · rw [hmp, Int.tdiv_eq_ediv_of_nonneg (by omega), Int.tdiv_eq_ediv_of_nonneg (by omega),
      Int.tdiv_eq_ediv_of_nonneg (by omega)]
    omega
  · simp only [Civil.daysFromCivil, hmarch, tdiv_floor, hyoe', hmp']

/-- The calendar of the headers is the one of the partitions, for every year. -/
theorem httpDaysFromCivil_eq (y : ℤ) {m d : ℕ} (hm : 1 ≤ m ∧ m ≤ 12) (hd : 1 ≤ d ∧ d ≤ 31) :
    httpDaysFromCivil y m d = Civil.daysFromCivil y m d := by
  obtain ⟨march, yoe, doe, e⟩ := exists_eraDay y hm hd
  rw [e.day]
  unfold httpDaysFromCivil
  extract_lets year era yearOfEra mp doy dayOfEra
  have hyear : year = march := e.march_eq
  have hera : era = march / 400 := by
    rw [← hyear]
    exact tdiv_floor year
  have hyoe : yearOfEra = yoe := by
    rw [← e.yoe_eq, ← hera, ← hyear]
  have hdoe : dayOfEra = doe := by
    rw [← e.doe_eq, ← hyoe]
  rw [hdoe, hera]

theorem isoDays_eq {y m d : ℕ} (hy : 1970 ≤ y) (hm : 1 ≤ m ∧ m ≤ 12) (hd : 1 ≤ d ∧ d ≤ 31) :
    (isoDays y m d : ℤ) = Civil.daysFromCivil y m d := by
  obtain ⟨march, hmarch⟩ : ∃ march : ℕ, (if m ≤ 2 then y - 1 else y) = march := ⟨_, rfl⟩
  have hmarch' : (if m ≤ 2 then (y : ℤ) - 1 else y) = march := by
    rw [← hmarch]
    split <;> omega
  obtain ⟨mp, hmp⟩ : ∃ mp, (if 2 < m then m - 3 else m + 9) = mp := ⟨_, rfl⟩
  have hpair : (if m ≤ 2 then (y - 1, m + 9) else (y, m - 3)) = (march, mp) := by
    rw [← hmarch, ← hmp]
    by_cases h : m ≤ 2
    · rw [if_pos h, if_pos h, if_neg (by omega)]
    · rw [if_neg h, if_neg h, if_pos (by omega)]
  -- the year that begins in March 1969 has January and February of 1970
  have hlow : 1970 ≤ march ∨ march = 1969 ∧ 10 ≤ mp := by
    rw [← hmarch, ← hmp]
    split <;> split <;> omega
  have hiso : isoDays y m d = isoMarchDays march mp d := by
    rw [isoDays, hpair]
  rw [hiso]
  unfold isoMarchDays Civil.daysFromCivil
  extract_lets isoEra isoYoe isoDoy isoDoe year era yoe mp' doy doe
  have hyear : year = march := hmarch'
  have hera : era = (isoEra : ℤ) := by
    have hfloor : era = year / 400 := tdiv_floor year
    rw [hfloor, hyear]
    rfl
  have hyoe : yoe = isoYoe := by
    have hsub : yoe = (year - era * 400).toNat := rfl
    have hsubIso : isoYoe = march - isoEra * 400 := rfl
    rw [hsub, hsubIso, hyear, hera]
    omega
  have hdoy : doy = isoDoy := by
    have hmp' : mp' = mp := hmp
    have hday : doy = (153 * mp' + 2) / 5 + d - 1 := rfl
    rw [hday, hmp']
  have hdoe : doe = isoDoe := by
    have hday : doe = yoe * 365 + yoe / 4 - yoe / 100 + doy := rfl
    rw [hday, hyoe, hdoy]
  rw [hera, hdoe]
  have hisoEra : isoEra = march / 400 := rfl
  omega

/-- The same steps on whole numbers as on natural ones. -/
theorem isoCivil_eq {z : ℤ} (hz : -719468 ≤ z) :
    isoCivil z = ((Civil.civilFromDays z).1, ((Civil.civilFromDays z).2.1 : ℤ),
      ((Civil.civilFromDays z).2.2 : ℤ)) := by
  obtain ⟨era, hera⟩ : ∃ era : ℤ, (z + 719468) / 146097 = era := ⟨_, rfl⟩
  obtain ⟨doe, hdoe⟩ : ∃ doe : ℕ, (z + 719468) % 146097 = doe :=
    ⟨((z + 719468) % 146097).toNat, by omega⟩
  have hlt : doe < 146097 := by omega
  have hera' : (if 0 ≤ z + 719468 then z + 719468 else z + 719468 - 146096).tdiv 146097
      = era := by
    rw [if_pos (by omega), Int.tdiv_eq_ediv_of_nonneg (by omega), hera]
  have hdoe' : (z + 719468 - era * 146097).toNat = doe := by omega
  obtain ⟨yoe, hyoe⟩ : ∃ yoe, (doe - doe / 1460 + doe / 36524 - doe / 146096) / 365 = yoe :=
    ⟨_, rfl⟩
  have hyoeZ : ((doe : ℤ) - (doe : ℤ) / 1460 + (doe : ℤ) / 36524 - (doe : ℤ) / 146096) / 365
      = yoe := by
    omega
  obtain ⟨-, hstart, -⟩ := Civil.year_of_day hlt
  rw [Civil.plainDay, hyoe, Civil.yearStart] at hstart
  obtain ⟨doy, hdoy⟩ : ∃ doy, doe - (365 * yoe + yoe / 4 - yoe / 100) = doy := ⟨_, rfl⟩
  have hdoyZ : (doe : ℤ) - (365 * (yoe : ℤ) + (yoe : ℤ) / 4 - (yoe : ℤ) / 100) = doy := by
    omega
  obtain ⟨mp, hmp⟩ : ∃ mp, (5 * doy + 2) / 153 = mp := ⟨_, rfl⟩
  have hmpZ : (5 * (doy : ℤ) + 2) / 153 = mp := by omega
  have hd : (doy : ℤ) - (153 * (mp : ℤ) + 2) / 5 + 1
      = ((doy - (153 * mp + 2) / 5 + 1 : ℕ) : ℤ) := by
    omega
  have hm : (if (mp : ℤ) < 10 then (mp : ℤ) + 3 else (mp : ℤ) - 9)
      = ((if mp < 10 then mp + 3 else mp - 9 : ℕ) : ℤ) := by
    split <;> split <;> omega
  simp only [isoCivil, hera, hdoe, hyoeZ, hdoyZ, hmpZ, hd, hm, Civil.civilFromDays, hera', hdoe',
    hyoe, hdoy, hmp]
  refine congrArg (fun y => (y, _)) ?_
  generalize (if mp < 10 then mp + 3 else mp - 9) = m
  split <;> split <;> omega

/-! ## What does not go over -/

/-- The seconds of a date, a day before 1970 counted as none. -/
def DateFields.secs (f : DateFields) : ℕ :=
  (Civil.daysFromCivil f.year f.month f.day).toNat * 86400 + f.hour * 3600 + f.minute * 60
    + f.second

/-- The day is not before what an `i64` counts, and the seconds fit a `u64`. -/
def DateFields.Fits (f : DateFields) : Prop :=
  -2 ^ 63 ≤ Civil.daysFromCivil f.year f.month f.day ∧ f.secs < 2 ^ 64

theorem checked_of {n : ℤ} (h : -2 ^ 63 ≤ n ∧ n < 2 ^ 63) : checked n = some n := if_pos h

theorem checked_eq_some {n k : ℤ} (h : checked n = some k) :
    k = n ∧ -2 ^ 63 ≤ n ∧ n < 2 ^ 63 := by
  rw [checked] at h
  split at h
  · next hn => exact ⟨(Option.some.inj h).symm, hn⟩
  · cases h

theorem checkedU64_of {n : ℕ} (h : n < 2 ^ 64) : checkedU64 n = some n := if_pos h

theorem checkedU64_eq_some {n k : ℕ} (h : checkedU64 n = some k) : k = n ∧ n < 2 ^ 64 := by
  rw [checkedU64] at h
  split at h
  · next hn => exact ⟨(Option.some.inj h).symm, hn⟩
  · cases h

section
variable {y : ℤ} {m d : ℕ}

/-- Where the day is one of an `i64`, no step on the way to it goes over. -/
theorem checkedDays_of (hy : -2 ^ 63 ≤ y ∧ y < 2 ^ 63) (hm : 1 ≤ m ∧ m ≤ 12)
    (hd : 1 ≤ d ∧ d ≤ 31)
    (h : -2 ^ 63 ≤ Civil.daysFromCivil y m d ∧ Civil.daysFromCivil y m d < 2 ^ 62) :
    checkedDays y m d = some (Civil.daysFromCivil y m d) := by
  obtain ⟨march, yoe, doe, e⟩ := exists_eraDay y hm hd
  obtain ⟨hmarch, hyoe, hyoe400, hdoe, hdoelt, hday⟩ := e
  rw [hday] at h
  obtain ⟨era, hera⟩ : ∃ era, march / 400 = era := ⟨_, rfl⟩
  rw [hera] at h hyoe hday
  have hbounds : march = era * 400 + yoe ∧ -2 ^ 63 ≤ march - 399 ∧ march < 2 ^ 62 := by omega
  have hfirst : (if m ≤ 2 then checked (y - 1) else some y) = some march := by
    rw [← hmarch] at hbounds ⊢
    split
    · next hm2 =>
      rw [if_pos hm2] at hbounds
      exact checked_of (by omega)
    · rfl
  have hfloor : (if 0 ≤ march then some march else checked (march - 399))
      = some (if 0 ≤ march then march else march - 399) := by
    split
    · rfl
    · exact checked_of (by omega)
  have hstart : checked (era * 400) = some (era * 400) := checked_of (by omega)
  have hdays : checked (era * 146097) = some (era * 146097) := checked_of (by omega)
  have hsum : checked (era * 146097 + doe) = some (era * 146097 + doe) := checked_of (by omega)
  have hlast : checked (era * 146097 + doe - 719468) = some (era * 146097 + doe - 719468) :=
    checked_of (by omega)
  have hyoec : checked (march - era * 400) = some (yoe : ℤ) := by
    rw [hyoe]
    exact checked_of (by omega)
  unfold checkedDays
  rw [hfirst, Option.bind_eq_bind, Option.bind_some, hfloor, Option.bind_some, tdiv_floor, hera]
  simp only
  rw [hstart, Option.bind_some, hyoec, Option.bind_some]
  rw [hdays, Option.bind_some, hdoe, hsum, Option.bind_some, hlast, hday]

theorem checkedDays_eq_some (hm : 1 ≤ m ∧ m ≤ 12) (hd : 1 ≤ d ∧ d ≤ 31) {days : ℤ}
    (h : checkedDays y m d = some days) :
    days = Civil.daysFromCivil y m d ∧ -2 ^ 63 ≤ days := by
  obtain ⟨march, yoe, doe, e⟩ := exists_eraDay y hm hd
  obtain ⟨hmarch, hyoe, hyoe400, hdoe, hdoelt, hday⟩ := e
  unfold checkedDays at h
  obtain ⟨year, hyear, h⟩ := Option.bind_eq_some_iff.1 h
  obtain ⟨floor, hfloor, h⟩ := Option.bind_eq_some_iff.1 h
  have hyear' : year = march := by
    rw [← hmarch]
    split
    · next h2 => exact (checked_eq_some ((if_pos h2).symm.trans hyear)).1
    · next h2 => exact (Option.some.inj ((if_neg h2).symm.trans hyear)).symm
  have hfloor' : floor = if 0 ≤ march then march else march - 399 := by
    rw [hyear'] at hfloor
    split
    · next h0 => exact (Option.some.inj ((if_pos h0).symm.trans hfloor)).symm
    · next h0 => exact (checked_eq_some ((if_neg h0).symm.trans hfloor)).1
  rw [hyear', hfloor', tdiv_floor] at h
  obtain ⟨start, hstart, h⟩ := Option.bind_eq_some_iff.1 h
  obtain ⟨yearOfEra, hyearOfEra, h⟩ := Option.bind_eq_some_iff.1 h
  obtain ⟨first, hfirst, h⟩ := Option.bind_eq_some_iff.1 h
  obtain ⟨sum, hsum, h⟩ := Option.bind_eq_some_iff.1 h
  obtain ⟨hlast, hlow, -⟩ := checked_eq_some h
  have hyoe' : yearOfEra = yoe := by
    rw [(checked_eq_some hyearOfEra).1, (checked_eq_some hstart).1, hyoe]
  have hsum' : sum = march / 400 * 146097 + doe := by
    rw [(checked_eq_some hsum).1, (checked_eq_some hfirst).1, hyoe', hdoe]
  rw [hsum'] at hlast hlow
  rw [hday, hlast]
  exact ⟨rfl, hlow⟩

end

theorem checkedSecs_eq {days : ℤ} {h mi s : ℕ} :
    checkedSecs days h mi s =
      if days < 0 then some none
      else if days.toNat * 86400 + h * 3600 + mi * 60 + s < 2 ^ 64 then
        some (some (days.toNat * 86400 + h * 3600 + mi * 60 + s))
      else none := by
  rw [checkedSecs]
  split
  · rfl
  · next hdays =>
    split
    · next hfit =>
      have of_le : ∀ {n}, n ≤ days.toNat * 86400 + h * 3600 + mi * 60 + s →
          checkedU64 n = some n := fun hle => checkedU64_of (hle.trans_lt hfit)
      have hday : checkedU64 (days.toNat * 86400) = some (days.toNat * 86400) :=
        of_le (by omega)
      have hhour : checkedU64 (days.toNat * 86400 + h * 3600)
          = some (days.toNat * 86400 + h * 3600) := of_le (by omega)
      have hminute : checkedU64 (days.toNat * 86400 + h * 3600 + mi * 60)
          = some (days.toNat * 86400 + h * 3600 + mi * 60) := of_le (by omega)
      have hsecond : checkedU64 (days.toNat * 86400 + h * 3600 + mi * 60 + s)
          = some (days.toNat * 86400 + h * 3600 + mi * 60 + s) := of_le le_rfl
      rw [hday, Option.bind_eq_bind, Option.bind_some, hhour, Option.bind_some, hminute,
        Option.bind_some, hsecond]
      rfl
    · next hover =>
      apply Option.eq_none_iff_forall_ne_some.2
      intro r hr
      obtain ⟨day, hday, hr⟩ := Option.bind_eq_some_iff.1 hr
      obtain ⟨hour, hhour, hr⟩ := Option.bind_eq_some_iff.1 hr
      obtain ⟨minute, hminute, hr⟩ := Option.bind_eq_some_iff.1 hr
      obtain ⟨second, hsecond, -⟩ := Option.bind_eq_some_iff.1 hr
      apply hover
      rw [← (checkedU64_eq_some hday).1, ← (checkedU64_eq_some hhour).1,
        ← (checkedU64_eq_some hminute).1]
      exact (checkedU64_eq_some hsecond).2

/-- The numbers of a header are those of a clock and of a calendar, of any year. -/
structure DateFields.Valid (f : DateFields) : Prop where
  year : -2 ^ 63 ≤ f.year ∧ f.year < 2 ^ 63
  month : 1 ≤ f.month ∧ f.month ≤ 12
  day : 1 ≤ f.day ∧ f.day ≤ 31
  clock : f.hour ≤ 23 ∧ f.minute ≤ 59 ∧ f.second ≤ 60

theorem dateFields_valid {v : Text} {f : DateFields} (h : dateFields v = some f) : f.Valid := by
  rw [dateFields] at h
  split at h
  · next name day month year time zone hsplit =>
    obtain ⟨-, -, h⟩ := Option.bind_eq_some_iff.1 h
    obtain ⟨month', hmonth, h⟩ := Option.bind_eq_some_iff.1 h
    obtain ⟨day', hday, h⟩ := Option.bind_eq_some_iff.1 h
    obtain ⟨year', hyear, h⟩ := Option.bind_eq_some_iff.1 h
    have hlt : month' < 12 := (List.findIdx?_eq_some_iff_getElem.1 hmonth).1
    have hday' := (Option.filter_eq_some_iff.1 hday).2
    split at h
    · next hh mm ss htime =>
      obtain ⟨hour, hhour, h⟩ := Option.bind_eq_some_iff.1 h
      obtain ⟨minute, hminute, h⟩ := Option.bind_eq_some_iff.1 h
      obtain ⟨second, hsecond, h⟩ := Option.bind_eq_some_iff.1 h
      obtain ⟨_, hclock, h⟩ := Option.bind_eq_some_iff.1 h
      cases h
      exact ⟨Decimal.parseInt_bounds hyear,
        ⟨Nat.le_add_left 1 month', hlt⟩, of_decide_eq_true hday',
        (Option.guard_eq_some' _).1 hclock⟩
    · cases h
  · cases h

/-- What a date stands for: one before 1970 for nothing. -/
def DateFields.value (f : DateFields) : Option ℕ :=
  if Civil.daysFromCivil f.year f.month f.day < 0 then none else some f.secs

theorem parseHttpDate_eq (v : Text) : parseHttpDate v = (dateFields v).bind DateFields.value := by
  have hvalue : ∀ year : ℤ, ∀ month day h m s : ℕ,
      (do
        guard (0 ≤ Civil.daysFromCivil year month day)
        return (Civil.daysFromCivil year month day).toNat * 86400 + h * 3600 + m * 60 + s)
        = DateFields.value ⟨year, month, day, h, m, s⟩ := by
    intro year month day h m s
    simp only [DateFields.value, DateFields.secs]
    split
    · next hneg => rw [guard, if_neg (by omega)]; rfl
    · next hpos => rw [guard, if_pos (by omega)]; rfl
  rw [parseHttpDate, dateFields]
  generalize Text.splitWhitespace v = parts
  -- A date has six parts, and its time has three.
  rcases parts with _ | ⟨name, _ | ⟨day, _ | ⟨month, _ | ⟨year, _ | ⟨time, _ |
    ⟨zone, _ | ⟨more, parts⟩⟩⟩⟩⟩⟩⟩
  · rfl
  · rfl
  · rfl
  · rfl
  · rfl
  · rfl
  · simp only [Option.bind_eq_bind, Option.bind_assoc]
    refine Option.bind_congr fun _ _ => Option.bind_congr fun month _ =>
      Option.bind_congr fun day _ => Option.bind_congr fun year _ => ?_
    generalize Text.splitAt ':' time = clock
    rcases clock with _ | ⟨hour, _ | ⟨minute, _ | ⟨second, _ | ⟨more, clock⟩⟩⟩⟩
    · rfl
    · rfl
    · rfl
    · simp only [Option.bind_assoc]
      refine Option.bind_congr fun h _ => Option.bind_congr fun m _ =>
        Option.bind_congr fun s _ => Option.bind_congr fun _ _ => ?_
      exact hvalue year (month + 1) day h m s
    · rfl
  · rfl

section
variable {v : Text} {f : DateFields}

theorem parseHttpDateChecked_of_fits (h : dateFields v = some f) (hfits : f.Fits) :
    parseHttpDateChecked v = some f.value := by
  have hf := dateFields_valid h
  obtain ⟨hlow, hhigh⟩ := hfits
  have hday : Civil.daysFromCivil f.year f.month f.day < 2 ^ 62 := by
    have hle : (Civil.daysFromCivil f.year f.month f.day).toNat * 86400 ≤ f.secs := by
      rw [DateFields.secs]
      omega
    omega
  simp only [parseHttpDateChecked, h]
  rw [checkedDays_of hf.year hf.month hf.day ⟨hlow, hday⟩, Option.bind_some, checkedSecs_eq,
    DateFields.value]
  split
  · rfl
  · exact if_pos hhigh

theorem fits_of_isSome (h : dateFields v = some f) (hsome : (parseHttpDateChecked v).isSome) :
    f.Fits := by
  have hf := dateFields_valid h
  obtain ⟨r, hr⟩ := Option.isSome_iff_exists.1 hsome
  simp only [parseHttpDateChecked, h] at hr
  obtain ⟨days, hdays, hsecs⟩ := Option.bind_eq_some_iff.1 hr
  obtain ⟨rfl, hlow⟩ := checkedDays_eq_some hf.month hf.day hdays
  refine ⟨hlow, ?_⟩
  rw [checkedSecs_eq] at hsecs
  split at hsecs
  · next hneg =>
    obtain ⟨hhour, hminute, hsecond⟩ := hf.clock
    rw [DateFields.secs, Int.toNat_of_nonpos hneg.le]
    omega
  · split at hsecs
    · next hfit => exact hfit
    · cases hsecs

end

/-- The arithmetic on a header goes over exactly where its date does not fit. -/
theorem parseHttpDateChecked_isSome_iff (v : Text) :
    (parseHttpDateChecked v).isSome ↔ ∀ f, dateFields v = some f → f.Fits := by
  constructor
  · intro hsome f hf
    exact fits_of_isSome hf hsome
  · intro hfits
    cases hfields : dateFields v with
    | none => rw [parseHttpDateChecked, hfields]; rfl
    | some f => rw [parseHttpDateChecked_of_fits hfields (hfits f hfields)]; rfl

/-- Where nothing goes over, what is computed is what is meant. -/
theorem parseHttpDate_of_checked {v : Text} {r : Option ℕ} (h : parseHttpDateChecked v = some r) :
    parseHttpDate v = r := by
  rw [parseHttpDate_eq]
  cases hfields : dateFields v with
  | none =>
    simp only [parseHttpDateChecked, hfields] at h
    exact Option.some.inj h
  | some f =>
    have hfits := fits_of_isSome hfields (h ▸ rfl)
    rw [parseHttpDateChecked_of_fits hfields hfits] at h
    exact Option.some.inj h

/-! ## The dates that are written -/

/-- No name has white space, and each month has its own. -/
theorem names : ((days ++ months).all fun w => !w.isEmpty && w.all fun c => !Text.isWhitespace c)
    = true ∧ days.length = 7 ∧ months.length = 12 ∧
    ∀ i < 12, months.findIdx? (· = months.getD i []) = some i := by
  decide +kernel

/-- The parts of the date that is written. -/
def fieldsOf (secs : ℕ) : DateFields :=
  let (y, m, d) := Civil.civilFromDays (secs / 86400 : ℕ)
  ⟨y, m, d, secs % 86400 / 3600, secs % 86400 % 3600 / 60, secs % 86400 % 60⟩

theorem plain_of_mem {word : Text} (h : word ∈ days ++ months) :
    word ≠ [] ∧ ∀ c ∈ word, Text.isWhitespace c = false := by
  have hword := List.all_eq_true.1 names.1 word h
  rw [Bool.and_eq_true, Bool.not_eq_true'] at hword
  obtain ⟨hne, hplain⟩ := hword
  refine ⟨by simpa using hne, fun c hc => ?_⟩
  simpa using List.all_eq_true.1 hplain c hc

theorem plain_padded (width n : ℕ) : ∀ c ∈ Decimal.padded width n, Text.isWhitespace c = false :=
  fun _ hc => Text.isWhitespace_of_isDigit (Decimal.isDigit_of_mem_padded hc)

/-- The time of day in a date. -/
def clock (h m s : ℕ) : Text :=
  Decimal.padded 2 h ++ ':' :: (Decimal.padded 2 m ++ ':' :: Decimal.padded 2 s)

theorem splitAt_clock (h m s : ℕ) : Text.splitAt ':' (clock h m s)
    = [Decimal.padded 2 h, Decimal.padded 2 m, Decimal.padded 2 s] := by
  have hcolon : ∀ n, ':' ∉ Decimal.padded 2 n := fun n hmem =>
    absurd (Decimal.isDigit_of_mem_padded hmem) (by decide)
  rw [clock, Text.splitAt_append (hcolon h), Text.splitAt_append (hcolon m),
    Text.splitAt_of_notMem (hcolon s)]

theorem plain_clock (h m s : ℕ) :
    clock h m s ≠ [] ∧ ∀ c ∈ clock h m s, Text.isWhitespace c = false := by
  refine ⟨by simp [clock], fun c hc => ?_⟩
  rw [clock, List.mem_append, List.mem_cons, List.mem_append, List.mem_cons] at hc
  rcases hc with hc | rfl | hc | rfl | hc
  · exact plain_padded 2 h c hc
  · decide
  · exact plain_padded 2 m c hc
  · decide
  · exact plain_padded 2 s c hc

section
variable {secs y m d : ℕ}

theorem httpDate_eq (h : Civil.civilFromDays (secs / 86400 : ℕ) = ((y : ℤ), m, d)) :
    httpDate secs = (days.getD ((secs / 86400 + 4) % 7) [] ++ [',']) ++ ' ' ::
      (Decimal.padded 2 d ++ ' ' :: (months.getD (m - 1) [] ++ ' ' ::
        (Decimal.padded 4 y ++ ' ' ::
          (clock (secs % 86400 / 3600) (secs % 86400 % 3600 / 60) (secs % 86400 % 60) ++ ' ' ::
            "GMT".toList)))) := by
  have hcomma : ", ".toList = [',', ' '] := rfl
  have hzone : " GMT".toList = ' ' :: "GMT".toList := rfl
  rw [httpDate, h]
  simp only [clock, hcomma, hzone, Int.toNat_natCast, List.append_assoc, List.cons_append,
    List.nil_append]

theorem splitWhitespace_httpDate (h : Civil.civilFromDays (secs / 86400 : ℕ) = ((y : ℤ), m, d))
    (hm : 1 ≤ m ∧ m ≤ 12) :
    Text.splitWhitespace (httpDate secs) = [days.getD ((secs / 86400 + 4) % 7) [] ++ [','],
      Decimal.padded 2 d, months.getD (m - 1) [], Decimal.padded 4 y,
      clock (secs % 86400 / 3600) (secs % 86400 % 3600 / 60) (secs % 86400 % 60),
      "GMT".toList] := by
  obtain ⟨-, hdays, hmonths, -⟩ := names
  have hname : days.getD ((secs / 86400 + 4) % 7) [] ∈ days := by
    rw [← List.getElem_eq_getD (h := by omega)]
    exact List.getElem_mem _
  have hmonth : months.getD (m - 1) [] ∈ months := by
    rw [← List.getElem_eq_getD (h := by omega)]
    exact List.getElem_mem _
  have hfirst : ∀ c ∈ days.getD ((secs / 86400 + 4) % 7) [] ++ [','],
      Text.isWhitespace c = false := by
    intro c hc
    rw [List.mem_append, List.mem_singleton] at hc
    rcases hc with hc | rfl
    · exact (plain_of_mem (List.mem_append_left _ hname)).2 c hc
    · decide
  obtain ⟨hmonthne, hmonthplain⟩ := plain_of_mem (List.mem_append_right _ hmonth)
  obtain ⟨hclockne, hclockplain⟩ :=
    plain_clock (secs % 86400 / 3600) (secs % 86400 % 3600 / 60) (secs % 86400 % 60)
  have hblank : Text.isWhitespace ' ' = true := by decide
  have hgmt : ∀ c ∈ "GMT".toList, Text.isWhitespace c = false := fun c hc => by
    simpa using List.all_eq_true.1
      (show ("GMT".toList.all fun c => !Text.isWhitespace c) = true by decide) c hc
  rw [httpDate_eq h, Text.splitWhitespace_append (by simp) hfirst hblank,
    Text.splitWhitespace_append (Decimal.padded_ne_nil 2 d) (plain_padded 2 d) hblank,
    Text.splitWhitespace_append hmonthne hmonthplain hblank,
    Text.splitWhitespace_append (Decimal.padded_ne_nil 4 y) (plain_padded 4 y) hblank,
    Text.splitWhitespace_append hclockne hclockplain hblank,
    Text.splitWhitespace_of_all (by decide) hgmt]

end

/-- A date that is written is read with its parts. -/
theorem dateFields_httpDate {secs : ℕ} (h : secs < 2 ^ 64) :
    dateFields (httpDate secs) = some (fieldsOf secs) := by
  have hz : -719468 ≤ ((secs / 86400 : ℕ) : ℤ) := by omega
  obtain ⟨hm, hd, hy⟩ := Civil.civilFromDays_bounds hz
  have hy0 := Civil.civilFromDays_year_nonneg hz
  obtain ⟨⟨y, m, d⟩, hciv⟩ : ∃ p, Civil.civilFromDays (secs / 86400 : ℕ) = p := ⟨_, rfl⟩
  rw [hciv] at hm hd hy hy0
  dsimp only at hm hd hy hy0
  lift y to ℕ using hy0
  obtain ⟨-, -, -, hfind⟩ := names
  have hyear : Decimal.parseInt (Decimal.padded 4 y) = some (y : ℤ) :=
    Decimal.parseInt_padded 4 (by omega)
  have hday : (Decimal.parse (Decimal.padded 2 d)).filter (fun d => 1 ≤ d ∧ d ≤ 31) = some d := by
    rw [Decimal.parse_padded 2 (by omega), Option.filter_some, if_pos (decide_eq_true hd)]
  have hclock : secs % 86400 / 3600 ≤ 23 ∧ secs % 86400 % 3600 / 60 ≤ 59 ∧
      secs % 86400 % 60 ≤ 60 := by
    omega
  simp only [dateFields, splitWhitespace_httpDate hciv hm, hfind (m - 1) (by omega), hday, hyear,
    splitAt_clock, Decimal.parse_padded 2 (show secs % 86400 / 3600 < 2 ^ 64 by omega),
    Decimal.parse_padded 2 (show secs % 86400 % 3600 / 60 < 2 ^ 64 by omega),
    Decimal.parse_padded 2 (show secs % 86400 % 60 < 2 ^ 64 by omega), fieldsOf, hciv]
  have hmonth : m - 1 + 1 = m := by omega
  simp only [guard_true, Option.pure_def, Option.bind_eq_bind, Option.bind_some, hmonth]
  rw [guard, if_pos hclock]
  rfl

/-- Every time that is written is read again. -/
theorem parseHttpDateChecked_httpDate {secs : ℕ} (h : secs < 2 ^ 64) :
    parseHttpDateChecked (httpDate secs) = some (some secs) := by
  have hday : Civil.daysFromCivil (fieldsOf secs).year (fieldsOf secs).month (fieldsOf secs).day
      = (secs / 86400 : ℕ) :=
    Civil.daysFromCivil_civilFromDays (by omega)
  have hsecs : (fieldsOf secs).secs = secs := by
    rw [DateFields.secs, hday, Int.toNat_natCast]
    have hparts : (fieldsOf secs).hour = secs % 86400 / 3600 ∧
        (fieldsOf secs).minute = secs % 86400 % 3600 / 60 ∧
        (fieldsOf secs).second = secs % 86400 % 60 := ⟨rfl, rfl, rfl⟩
    omega
  have hfits : (fieldsOf secs).Fits := by
    rw [DateFields.Fits, hsecs, hday]
    exact ⟨by omega, h⟩
  rw [parseHttpDateChecked_of_fits (dateFields_httpDate h) hfits, DateFields.value, hday,
    if_neg (by omega), hsecs]

/-! ## Dates of headers -/

/-- A time that is written as a header is read again, the arithmetic on any header goes over
exactly where its date does not fit, and the three calendars agree on the days of four-digit
years. -/
theorem http_dates {t : ℕ} (ht : t < 2 ^ 64) (v : Text) {z : ℤ} (hz : 0 ≤ z) {y m d : ℕ}
    (hy : 1970 ≤ y) (hm : 1 ≤ m ∧ m ≤ 12) (hd : 1 ≤ d ∧ d ≤ 31) :
    parseHttpDateChecked (httpDate t) = some (some t) ∧ parseHttpDate (httpDate t) = some t ∧
      ((parseHttpDateChecked v).isSome ↔ ∀ f, dateFields v = some f → f.Fits) ∧
      (∀ r, parseHttpDateChecked v = some r → parseHttpDate v = r) ∧
      httpDaysFromCivil y m d = Civil.daysFromCivil y m d ∧
      (isoDays y m d : ℤ) = Civil.daysFromCivil y m d ∧
      isoCivil z = ((Civil.civilFromDays z).1, ((Civil.civilFromDays z).2.1 : ℤ),
        ((Civil.civilFromDays z).2.2 : ℤ)) := by
  have hround := parseHttpDateChecked_httpDate ht
  exact ⟨hround, parseHttpDate_of_checked hround, parseHttpDateChecked_isSome_iff v,
    fun _ => parseHttpDate_of_checked, httpDaysFromCivil_eq y hm hd, isoDays_eq hy hm hd,
    isoCivil_eq (by omega)⟩

/-- The header of a time in 1994, and the last day of 9999. -/
theorem http_dates_of_1994 :
    parseHttpDateChecked (httpDate 784111777) = some (some 784111777) ∧
      (isoDays 9999 12 31 : ℤ) = Civil.daysFromCivil 9999 12 31 := by
  have ht : 784111777 < 2 ^ 64 := by decide +kernel
  obtain ⟨hround, -, -, -, -, hiso, -⟩ := http_dates ht "Sun, 06 Nov 1994 08:49:37 GMT".toList
    (z := 0) le_rfl (y := 9999) (m := 12) (d := 31) (by omega) (by omega) (by omega)
  exact ⟨hround, hiso⟩

/-- The last year of an `i64` goes over. -/
theorem far_year_goes_over : ¬ ∀ v : Text, (parseHttpDateChecked v).isSome = true := by
  intro h
  have hsome := h "Sun, 06 Nov 9223372036854775807 08:49:37 GMT".toList
  have hnone :
      parseHttpDateChecked "Sun, 06 Nov 9223372036854775807 08:49:37 GMT".toList = none := by
    decide +kernel
  rw [hnone] at hsome
  cases hsome

end LogLess.S3
