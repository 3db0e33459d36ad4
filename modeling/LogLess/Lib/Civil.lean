import Mathlib.Tactic

/-!
# Civil dates

The proleptic Gregorian calendar by eras of 400 years and 146097 days, with years that
start in March. Division truncates, as it does on machine integers.
-/

namespace Civil

/-- Year, month and day of the day `z` after 1970-01-01. -/
def civilFromDays (z : ℤ) : ℤ × ℕ × ℕ :=
  let z := z + 719468
  let era := (if 0 ≤ z then z else z - 146096).tdiv 146097
  let doe := (z - era * 146097).toNat
  let yoe := (doe - doe / 1460 + doe / 36524 - doe / 146096) / 365
  let y := (yoe : ℤ) + era * 400
  let doy := doe - (365 * yoe + yoe / 4 - yoe / 100)
  let mp := (5 * doy + 2) / 153
  let d := doy - (153 * mp + 2) / 5 + 1
  let m := if mp < 10 then mp + 3 else mp - 9
  (if m ≤ 2 then y + 1 else y, m, d)

/-- Days from 1970-01-01 to a date. -/
def daysFromCivil (y : ℤ) (m d : ℕ) : ℤ :=
  let y := if m ≤ 2 then y - 1 else y
  let era := (if 0 ≤ y then y else y - 399).tdiv 400
  let yoe := (y - era * 400).toNat
  let mp := if 2 < m then m - 3 else m + 9
  let doy := (153 * mp + 2) / 5 + d - 1
  let doe := yoe * 365 + yoe / 4 - yoe / 100 + doy
  era * 146097 + (doe : ℤ) - 719468

/-- A day of the era with its leap days taken out, which 365 divides into years. -/
def plainDay (doe : ℕ) : ℕ := doe - doe / 1460 + doe / 36524 - doe / 146096

/-- The first day of a year of the era. -/
def yearStart (yoe : ℕ) : ℕ := 365 * yoe + yoe / 4 - yoe / 100

theorem plainDay_mono {a b : ℕ} (h : a ≤ b) (hb : b < 146097) : plainDay a ≤ plainDay b := by
  unfold plainDay
  have h1 : a - a / 1460 ≤ b - b / 1460 := by omega
  have h2 : a / 36524 - a / 146096 ≤ b / 36524 - b / 146096 := by omega
  omega

/-- Years begin and end where 365 plain days do. -/
theorem plainDay_yearStart : ∀ y < 400, 365 * y ≤ plainDay (yearStart y) ∧
    plainDay (yearStart (y + 1) - 1) < 365 * (y + 1) := by
  decide +kernel

/-- The year a day of the era is in, and the day in it. -/
theorem year_of_day {doe : ℕ} (h : doe < 146097) :
    let yoe := plainDay doe / 365
    yoe < 400 ∧ yearStart yoe ≤ doe ∧ doe - yearStart yoe < 366 := by
  intro yoe
  have hdiv : 365 * yoe ≤ plainDay doe ∧ plainDay doe < 365 * (yoe + 1) := by omega
  have hlt : yoe < 400 := by
    have h1 := plainDay_mono (show doe ≤ 146096 by omega) (by omega)
    have h2 : plainDay 146096 = 145999 := by decide
    omega
  refine ⟨hlt, ?_, ?_⟩
  · by_contra hcon
    cases hy : yoe with
    | zero => simp [hy, yearStart] at hcon
    | succ y =>
      have h1 := (plainDay_yearStart y (by omega)).2
      rw [hy] at hcon hdiv
      have hstart : yearStart (y + 1) ≤ 146097 := by
        unfold yearStart
        omega
      have h2 := plainDay_mono (show doe ≤ yearStart (y + 1) - 1 by omega) (by omega)
      omega
  · by_contra hcon
    have hnext : yearStart (yoe + 1) ≤ yearStart yoe + 366 := by
      unfold yearStart
      omega
    by_cases hy : yoe + 1 < 400
    · have h1 := (plainDay_yearStart (yoe + 1) hy).1
      have h2 := plainDay_mono (show yearStart (yoe + 1) ≤ doe by omega) h
      omega
    · have : yoe = 399 := by omega
      have h3 : yearStart 399 = 145731 := by decide
      rw [this] at hcon
      omega

/-- The month a day of the year is in, counted from March, and the day in it. -/
theorem month_of_day {doy : ℕ} (h : doy < 366) :
    let mp := (5 * doy + 2) / 153
    mp < 12 ∧ (153 * mp + 2) / 5 ≤ doy ∧ doy - (153 * mp + 2) / 5 < 31 := by
  intro mp
  omega

/-- A day of the era is before the next year of the era. -/
theorem lt_yearStart_succ {doe : ℕ} (h : doe < 146097) (hyoe : plainDay doe / 365 < 399) :
    doe < yearStart (plainDay doe / 365 + 1) := by
  by_contra hcon
  have h1 := (plainDay_yearStart (plainDay doe / 365 + 1) (by omega)).1
  have h2 := plainDay_mono (show yearStart (plainDay doe / 365 + 1) ≤ doe by omega) h
  omega

/-- A day as `civilFromDays` takes it apart: the era, the year of the era, the day of that
year and its month, both counted from March. -/
structure Parts (z : ℤ) (era : ℤ) (yoe doy mp : ℕ) : Prop where
  day : z = era * 146097 + ((yearStart yoe + doy : ℕ) : ℤ) - 719468
  era_nonneg : 0 ≤ era
  yoe_lt : yoe < 400
  doy_lt : doy < 366
  leap : doy = 365 → (yoe + 1) % 4 = 0 ∧ (yoe + 1) % 100 ≠ 0 ∨ yoe = 399
  month : mp = (5 * doy + 2) / 153
  civil : civilFromDays z = (if (if mp < 10 then mp + 3 else mp - 9) ≤ 2
      then (yoe : ℤ) + era * 400 + 1 else (yoe : ℤ) + era * 400,
    if mp < 10 then mp + 3 else mp - 9, doy - (153 * mp + 2) / 5 + 1)

theorem exists_parts {z : ℤ} (hz : -719468 ≤ z) : ∃ era yoe doy mp, Parts z era yoe doy mp := by
  have hera : (if 0 ≤ z + 719468 then z + 719468 else z + 719468 - 146096).tdiv 146097
      = (z + 719468) / 146097 := by
    rw [if_pos (by omega), Int.tdiv_eq_ediv_of_nonneg (by omega)]
  obtain ⟨era, herae⟩ : ∃ era : ℤ, (z + 719468) / 146097 = era := ⟨_, rfl⟩
  obtain ⟨doe, hdoe⟩ : ∃ doe : ℕ, (z + 719468 - era * 146097).toNat = doe := ⟨_, rfl⟩
  have hdoelt : doe < 146097 := by omega
  obtain ⟨hyoe, hstart, hdoy⟩ := year_of_day hdoelt
  have hnext := lt_yearStart_succ hdoelt
  obtain ⟨yoe, hyoee⟩ : ∃ yoe, plainDay doe / 365 = yoe := ⟨_, rfl⟩
  rw [hyoee] at hyoe hstart hdoy hnext
  obtain ⟨doy, hdoye⟩ : ∃ doy, doe - yearStart yoe = doy := ⟨_, rfl⟩
  rw [hdoye] at hdoy
  refine ⟨era, yoe, doy, (5 * doy + 2) / 153, by omega, by omega, hyoe, hdoy, ?_, rfl, ?_⟩
  · intro h365
    by_cases hlast : yoe = 399
    · exact .inr hlast
    · have hlt := hnext (by omega)
      unfold yearStart at hstart hdoye hlt
      rw [Nat.succ_div, Nat.succ_div] at hlt
      left
      split_ifs at hlt <;> omega
  · simp only [civilFromDays, hera, herae, hdoe]
    simp only [plainDay] at hyoee
    simp only [yearStart] at hdoye
    simp only [hyoee, hdoye]

/-- The day of a date is the day the date was made from. -/
theorem daysFromCivil_civilFromDays {z : ℤ} (hz : -719468 ≤ z) :
    daysFromCivil (civilFromDays z).1 (civilFromDays z).2.1 (civilFromDays z).2.2 = z := by
  obtain ⟨era, yoe, doy, mp, p⟩ := exists_parts hz
  obtain ⟨hday, hera, hyoe, hdoy, -, hmpe, hciv⟩ := p
  obtain ⟨hmp, hmle, hmd⟩ := month_of_day hdoy
  rw [← hmpe] at hmp hmle hmd
  rw [hciv]
  simp only [daysFromCivil]
  -- back: the same year of the era, day of the year and day of the era
  have hy : (if (if mp < 10 then mp + 3 else mp - 9) ≤ 2 then
      (if (if mp < 10 then mp + 3 else mp - 9) ≤ 2 then (yoe : ℤ) + era * 400 + 1
        else (yoe : ℤ) + era * 400) - 1
      else if (if mp < 10 then mp + 3 else mp - 9) ≤ 2 then (yoe : ℤ) + era * 400 + 1
        else (yoe : ℤ) + era * 400) = (yoe : ℤ) + era * 400 := by
    split_ifs <;> omega
  have hera' : (if 0 ≤ (yoe : ℤ) + era * 400 then (yoe : ℤ) + era * 400
      else (yoe : ℤ) + era * 400 - 399).tdiv 400 = era := by
    rw [if_pos (by omega), Int.tdiv_eq_ediv_of_nonneg (by omega)]
    omega
  have hyoe' : ((yoe : ℤ) + era * 400 - era * 400).toNat = yoe := by omega
  have hmp' : (if 2 < (if mp < 10 then mp + 3 else mp - 9)
      then (if mp < 10 then mp + 3 else mp - 9) - 3
      else (if mp < 10 then mp + 3 else mp - 9) + 9) = mp := by
    split_ifs <;> omega
  have hdoy' : (153 * mp + 2) / 5 + (doy - (153 * mp + 2) / 5 + 1) - 1 = doy := by omega
  have hdoe' : yoe * 365 + yoe / 4 - yoe / 100 + doy = yearStart yoe + doy := by
    unfold yearStart
    omega
  rw [hy, hera', hyoe', hmp', hdoy', hdoe', hday]

theorem civilFromDays_year_nonneg {z : ℤ} (hz : -719468 ≤ z) : 0 ≤ (civilFromDays z).1 := by
  obtain ⟨era, yoe, doy, mp, p⟩ := exists_parts hz
  have hera := p.era_nonneg
  rw [p.civil]
  split_ifs <;> omega

/-- The month and the day are ones of a year, and years are fewer than days. -/
theorem civilFromDays_bounds {z : ℤ} (hz : -719468 ≤ z) :
    (1 ≤ (civilFromDays z).2.1 ∧ (civilFromDays z).2.1 ≤ 12) ∧
      (1 ≤ (civilFromDays z).2.2 ∧ (civilFromDays z).2.2 ≤ 31) ∧
      (civilFromDays z).1 ≤ z + 719868 := by
  obtain ⟨era, yoe, doy, mp, p⟩ := exists_parts hz
  obtain ⟨hday, hera, hyoe, hdoy, -, hmpe, hciv⟩ := p
  obtain ⟨hmp, hmle, hmd⟩ := month_of_day hdoy
  rw [← hmpe] at hmp hmle hmd
  unfold yearStart at hday
  rw [hciv]
  simp only
  refine ⟨?_, ⟨by omega, by omega⟩, ?_⟩
  · split_ifs <;> omega
  · split_ifs <;> omega

/-! ## From a date to its day and back -/

def isLeap (y : ℤ) : Bool := (y % 4 == 0 && y % 100 != 0) || y % 400 == 0

def daysInMonth (y : ℤ) (m : ℕ) : ℕ :=
  if m = 1 ∨ m = 3 ∨ m = 5 ∨ m = 7 ∨ m = 8 ∨ m = 10 ∨ m = 12 then 31
  else if m = 4 ∨ m = 6 ∨ m = 9 ∨ m = 11 then 30
  else if isLeap y then 29
  else 28

/-- The month counted from March. -/
def marchMonth (m : ℕ) : ℕ := if 2 < m then m - 3 else m + 9

/-- The day of a year that starts in March. -/
def marchDay (m d : ℕ) : ℕ := (153 * marchMonth m + 2) / 5 + d - 1

/-- The date of a day is one of the calendar. -/
theorem civilFromDays_valid {z : ℤ} (hz : -719468 ≤ z) :
    (civilFromDays z).2.2 ≤ daysInMonth (civilFromDays z).1 (civilFromDays z).2.1 := by
  obtain ⟨era, yoe, doy, mp, p⟩ := exists_parts hz
  obtain ⟨-, -, -, hdoy, hleap, hmpe, hciv⟩ := p
  obtain ⟨hmp, -, -⟩ := month_of_day hdoy
  rw [← hmpe] at hmp
  rw [hciv]
  by_cases hfeb : mp = 11
  · -- only a year that ends in a leap day has a day 365
    have hday : doy = 365 → isLeap (yoe + era * 400 + 1) = true := by
      intro h365
      simp only [isLeap, Bool.or_eq_true, Bool.and_eq_true, beq_iff_eq, bne_iff_ne]
      rcases hleap h365 with ⟨h4, h100⟩ | rfl
      · exact .inl (by omega)
      · exact .inr (by omega)
    subst hfeb
    simp only [daysInMonth]
    norm_num
    split
    · omega
    · next hplain =>
      have h365 : doy ≠ 365 := fun h365 => hplain (hday h365)
      omega
  · have hmonth : doy - (153 * mp + 2) / 5 + 1
        ≤ (153 * (mp + 1) + 2) / 5 - (153 * mp + 2) / 5 := by
      omega
    refine hmonth.trans ?_
    clear hmpe hciv hmonth
    interval_cases mp <;> simp [daysInMonth] at hfeb ⊢

/-- Month and day are those of the day of the year, and only a leap day is day 365. -/
theorem marchDay_spec {y : ℤ} {m d : ℕ} (hm : 1 ≤ m) (hm' : m ≤ 12) (hd : 1 ≤ d)
    (hd' : d ≤ daysInMonth y m) :
    (5 * marchDay m d + 2) / 153 = marchMonth m ∧
      marchDay m d - (153 * marchMonth m + 2) / 5 + 1 = d ∧ marchDay m d < 366 ∧
      (marchDay m d = 365 → m = 2 ∧ isLeap y = true) := by
  have hle : d ≤ 31 ∧ (m = 2 → d ≤ 29 ∧ (d = 29 → isLeap y = true)) ∧
      (m = 4 ∨ m = 6 ∨ m = 9 ∨ m = 11 → d ≤ 30) := by
    unfold daysInMonth at hd'
    split_ifs at hd' with h1 h2 h3
    · omega
    · omega
    · exact ⟨by omega, fun _ => ⟨by omega, fun _ => h3⟩, by omega⟩
    · omega
  simp only [marchDay, marchMonth]
  obtain ⟨h31, hfeb, h30⟩ := hle
  interval_cases m <;> simp only [Nat.reduceLT, if_true, if_false] <;>
    refine ⟨by omega, by omega, by omega, fun hday => ⟨?_, ?_⟩⟩ <;> first
    | omega
    | trivial
    | exact (hfeb rfl).2 (by omega)

/-- A leap day is the last day of a year with 366 days. -/
theorem yearStart_succ_of_leap {yoe : ℕ} (h : yoe < 400) (hleap : isLeap (yoe + 1) = true) :
    yearStart (yoe + 1) = yearStart yoe + 366 ∨ yoe = 399 := by
  simp only [isLeap, Bool.or_eq_true, Bool.and_eq_true, beq_iff_eq, bne_iff_ne] at hleap
  unfold yearStart
  omega

/-- The year of the era is that of the day of the era. -/
theorem plainDay_div {yoe doy : ℕ} (hyoe : yoe < 400) (hdoy : doy < 366)
    (hleap : doy = 365 → isLeap (yoe + 1) = true) : plainDay (yearStart yoe + doy) / 365 = yoe := by
  have hstart : yearStart yoe + 365 ≤ yearStart (yoe + 1) ∧ yearStart (yoe + 1) ≤ 146096 := by
    unfold yearStart
    omega
  have hlast : yearStart yoe + doy ≤ yearStart (yoe + 1) - 1 ∨ yoe = 399 ∧ doy = 365 := by
    by_cases hday : doy = 365
    · have := yearStart_succ_of_leap hyoe (hleap hday)
      omega
    · omega
  obtain ⟨hlow, hhigh⟩ := plainDay_yearStart yoe hyoe
  rcases hlast with hle | ⟨rfl, rfl⟩
  · have h1 := plainDay_mono (show yearStart yoe ≤ yearStart yoe + doy by omega) (by omega)
    have h2 := plainDay_mono hle (by omega)
    omega
  · decide

/-- A date is made from its day. -/
theorem civilFromDays_daysFromCivil {y : ℤ} {m d : ℕ} (hy : 1 ≤ y) (hm : 1 ≤ m) (hm' : m ≤ 12)
    (hd : 1 ≤ d) (hd' : d ≤ daysInMonth y m) :
    civilFromDays (daysFromCivil y m d) = (y, m, d) := by
  obtain ⟨hmonth, hday, hdoy, hleap⟩ := marchDay_spec hm hm' hd hd'
  -- the year that starts in March, as its era and the year in it
  obtain ⟨march, hmarch⟩ : ∃ march : ℤ, (if m ≤ 2 then y - 1 else y) = march := ⟨_, rfl⟩
  have hmarch0 : 0 ≤ march := by
    rw [← hmarch]
    split <;> omega
  obtain ⟨era, hera⟩ : ∃ era : ℤ, march / 400 = era := ⟨_, rfl⟩
  obtain ⟨yoe, hyoe⟩ : ∃ yoe : ℕ, (march - era * 400).toNat = yoe := ⟨_, rfl⟩
  have hyoe400 : yoe < 400 ∧ march = yoe + era * 400 ∧ 0 ≤ era := by omega
  have hdays : daysFromCivil y m d
      = era * 146097 + ((yearStart yoe + marchDay m d : ℕ) : ℤ) - 719468 := by
    have htdiv : (if 0 ≤ march then march else march - 399).tdiv 400 = era := by
      rw [if_pos hmarch0, Int.tdiv_eq_ediv_of_nonneg hmarch0, hera]
    have hdoe : yoe * 365 + yoe / 4 - yoe / 100 + marchDay m d = yearStart yoe + marchDay m d := by
      rw [yearStart, Nat.mul_comm]
    simp only [daysFromCivil, hmarch, htdiv, hyoe]
    rw [← hdoe]
    rfl
  have hyear : plainDay (yearStart yoe + marchDay m d) / 365 = yoe := by
    refine plainDay_div hyoe400.1 hdoy fun h365 => ?_
    obtain ⟨rfl, hleapy⟩ := hleap h365
    rw [if_pos le_rfl] at hmarch
    simp only [isLeap, Bool.or_eq_true, Bool.and_eq_true, beq_iff_eq, bne_iff_ne] at hleapy ⊢
    omega
  have hdoe : yearStart yoe + marchDay m d < 146097 := by
    have hstart : yearStart yoe ≤ 145731 := by
      unfold yearStart
      omega
    omega
  generalize hz : era * 146097 + ((yearStart yoe + marchDay m d : ℕ) : ℤ) - 719468 = z at hdays
  have hera' : (if 0 ≤ z + 719468 then z + 719468 else z + 719468 - 146096).tdiv 146097 = era := by
    rw [if_pos (by omega), Int.tdiv_eq_ediv_of_nonneg (by omega)]
    omega
  have hdoe' : (z + 719468 - era * 146097).toNat = yearStart yoe + marchDay m d := by omega
  rw [plainDay] at hyear
  have hdoy' : yearStart yoe + marchDay m d - (365 * yoe + yoe / 4 - yoe / 100)
      = marchDay m d := by
    rw [yearStart]
    omega
  rw [hdays]
  simp only [civilFromDays, hera', hdoe', hyear, hdoy', hmonth, hday]
  have hback : (if marchMonth m < 10 then marchMonth m + 3 else marchMonth m - 9) = m := by
    unfold marchMonth
    split_ifs <;> omega
  rw [hback]
  have hyback : (if m ≤ 2 then (yoe : ℤ) + era * 400 + 1 else (yoe : ℤ) + era * 400) = y := by
    rw [← hyoe400.2.1, ← hmarch]
    split <;> omega
  rw [hyback]

end Civil
