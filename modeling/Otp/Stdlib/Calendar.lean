import Mathlib

/-!
# Gregorian day numbers (`calendar.erl`)

`date_to_gregorian_days` and `gregorian_days_to_date` in the closed form of Neri
and Schneider: the year starts in March, 400 years make an era, and every
quotient is Erlang's `div`, which truncates towards zero.

The proofs go through one abstract reading of the day number,

    yearStart y + monthStart m + (day - 1) + 60

for March-based years and months, in which `yearStart` is a formula in floor
divisions over all integers.  The era computation of the source is exact for
that reading (`dateToGregorianDays_eq`), the lengths of years and months are
differences of starts (`yearStart_succ`, `lastDayOfTheMonth_eq`), and the two
quotients of the inverse function find the year and the month a day lies in
(`yearOfEra_eq`, `monthPrime_eq`).
-/

namespace Otp.Stdlib.Calendar

/-- A `{Year, Month, Day}` triple of integers, valid or not. -/
structure Date where
  year : ℤ
  month : ℤ
  day : ℤ
deriving DecidableEq, Repr

/-! ## The source -/

/-- `is_leap_year/1`. -/
def isLeapYear (year : ℤ) : Bool :=
  if year.tmod 4 = 0 ∧ year.tmod 100 ≠ 0 then true
  else if year.tmod 400 = 0 then true
  else false

/-- `last_day_of_the_month/2`; `none` is the `function_clause` error of a month
outside `1..12`. -/
def lastDayOfTheMonth (year month : ℤ) : Option ℤ :=
  if month = 4 then some 30
  else if month = 6 then some 30
  else if month = 9 then some 30
  else if month = 11 then some 30
  else if month = 2 then
    match isLeapYear year with
    | true => some 29
    | false => some 28
  else if 0 < month ∧ month < 13 then some 31
  else none

/-- `valid_date/1`. -/
def validDate (date : Date) : Bool :=
  if 0 < date.month ∧ date.month < 13 ∧ 0 < date.day then
    (lastDayOfTheMonth date.year date.month).any fun last => decide (date.day ≤ last)
  else false

/-- `date_to_gregorian_days/1`; `none` is the `function_clause` error of a day
that is not positive. -/
def dateToGregorianDays (date : Date) : Option ℤ :=
  if 0 < date.day then
    let y := if date.month ≤ 2 then date.year - 1 else date.year
    let era := if 0 ≤ y then y.tdiv 400 else (y - 399).tdiv 400
    let yearOfEra := y - era * 400
    let monthPrime := if date.month > 2 then date.month - 3 else date.month + 9
    let dayOfYear := (153 * monthPrime + 2).tdiv 5 + date.day - 1
    let dayOfEra := 365 * yearOfEra + yearOfEra.tdiv 4 - yearOfEra.tdiv 100 + dayOfYear
    some (era * 146097 + dayOfEra + 60)
  else none

/-- `gregorian_days_to_date/1`. -/
def gregorianDaysToDate (days : ℤ) : Date :=
  let z := days - 60
  let era := if 0 ≤ z then z.tdiv 146097 else (z - 146097 + 1).tdiv 146097
  let dayOfEra := z - era * 146097
  let yearOfEra := (dayOfEra - dayOfEra.tdiv 1460 + dayOfEra.tdiv 36524
    - dayOfEra.tdiv (146097 - 1)).tdiv 365
  let dayOfYear := dayOfEra - (365 * yearOfEra + yearOfEra.tdiv 4 - yearOfEra.tdiv 100)
  let monthPrime := (5 * dayOfYear + 2).tdiv 153
  let day := dayOfYear - (153 * monthPrime + 2).tdiv 5 + 1
  let month := if monthPrime < 10 then monthPrime + 3 else monthPrime - 9
  let y := yearOfEra + era * 400
  let year := if month ≤ 2 then y + 1 else y
  ⟨year, month, day⟩

/-! ## March-based years and months -/

/-- Days from 1 March of year 0 to 1 March of `year`. -/
def yearStart (year : ℤ) : ℤ := 365 * year + year / 4 - year / 100 + year / 400

/-- Days from 1 March to the first day of the `month`-th month after it. -/
def monthStart (month : ℤ) : ℤ := (153 * month + 2) / 5

/-- The year, counted from March, that a month of a calendar year belongs to. -/
def marchYear (date : Date) : ℤ := if date.month ≤ 2 then date.year - 1 else date.year

/-- A month counted from March, `0..11` for the months `1..12`. -/
def marchMonth (date : Date) : ℤ := if date.month > 2 then date.month - 3 else date.month + 9

/-- The date of a March-based year, a March-based month and a day. -/
def ofMarch (year month day : ℤ) : Date :=
  let m := if month < 10 then month + 3 else month - 9
  ⟨if m ≤ 2 then year + 1 else year, m, day⟩

theorem ofMarch_march (date : Date) (h0 : 0 < date.month) (h1 : date.month < 13) :
    ofMarch (marchYear date) (marchMonth date) date.day = date := by
  obtain ⟨year, month, day⟩ := date
  interval_cases month <;> simp [ofMarch, marchYear, marchMonth]

theorem isLeapYear_iff (year : ℤ) :
    isLeapYear year = true ↔ year % 4 = 0 ∧ (year % 100 ≠ 0 ∨ year % 400 = 0) := by
  have rem (k : ℤ) : year.tmod k = 0 ↔ year % k = 0 := by
    rw [← Int.dvd_iff_tmod_eq_zero, Int.dvd_iff_emod_eq_zero]
  simp only [isLeapYear, ne_eq, rem]
  split_ifs <;> simp <;> omega

/-- The era of the source is a floor division, for negative numbers as well. -/
theorem era_eq (n k : ℤ) (hk : 0 < k) :
    (if 0 ≤ n then n.tdiv k else (n - (k - 1)).tdiv k) = n / k := by
  split_ifs with h
  · exact Int.tdiv_eq_ediv_of_nonneg h
  · have hneg : n - (k - 1) = -(k - 1 - n) := by ring
    rw [hneg, Int.neg_tdiv, Int.tdiv_eq_ediv_of_nonneg (by omega)]
    have hdiv := Int.mul_ediv_add_emod n k
    have hlt := Int.emod_lt_of_pos n hk
    have hnn := Int.emod_nonneg n hk.ne'
    have hceil : (k - 1 - n) / k = -(n / k) ∧ (k - 1 - n) % k = k - 1 - n % k := by
      rw [Int.ediv_emod_unique hk]
      exact ⟨by linarith, by omega, by omega⟩
    rw [hceil.1, neg_neg]

/-- The day number of the source, read off its March-based parts. -/
theorem dateToGregorianDays_eq (date : Date) (hm : 0 < date.month) (hd : 0 < date.day) :
    dateToGregorianDays date =
      some (yearStart (marchYear date) + monthStart (marchMonth date) + (date.day - 1) + 60) := by
  have hmp : 0 ≤ marchMonth date := by unfold marchMonth; split_ifs <;> omega
  have hera := era_eq (marchYear date) 400 (by decide)
  unfold dateToGregorianDays
  rw [if_pos hd]
  simp only [← marchYear.eq_1, ← marchMonth.eq_1]
  simp only [show (400 : ℤ) - 1 = 399 from rfl] at hera
  rw [hera, Int.tdiv_eq_ediv_of_nonneg (by omega), Int.tdiv_eq_ediv_of_nonneg (by omega),
    Int.tdiv_eq_ediv_of_nonneg (by omega)]
  simp only [yearStart, monthStart, Option.some.injEq]
  omega

/-! ## Lengths of years and months -/

theorem yearStart_succ (year : ℤ) :
    yearStart (year + 1) = yearStart year + (if isLeapYear (year + 1) then 366 else 365) := by
  have hleap := isLeapYear_iff (year + 1)
  simp only [yearStart]
  split_ifs with h
  · have := hleap.1 h
    omega
  · have := mt hleap.2 h
    omega

theorem yearStart_era (year : ℤ) :
    yearStart year = year / 400 * 146097 + yearStart (year % 400) := by
  simp only [yearStart]
  omega

/-! ## Finding the year and the month of a day -/

/-- The quotients by 4 years, 100 years and an era cancel the leap days before a
day of the era, up to one: that day is the last day of a long year or of the
years before it, never the first of a year. -/
theorem yearOfEra_eq (year day : ℤ) (hy0 : 0 ≤ year) (hy1 : year < 400) (h0 : 0 ≤ day)
    (h1 : yearStart year + day < yearStart (year + 1)) :
    let dayOfEra := yearStart year + day
    (dayOfEra - dayOfEra / 1460 + dayOfEra / 36524 - dayOfEra / 146096) / 365 = year := by
  -- centuries, leap cycles and years of the era
  obtain ⟨c, q, r, rfl, hc0, hc1, hq0, hq1, hr0, hr1⟩ : ∃ c q r : ℤ,
      year = 100 * c + 4 * q + r ∧ 0 ≤ c ∧ c ≤ 3 ∧ 0 ≤ q ∧ q ≤ 24 ∧ 0 ≤ r ∧ r ≤ 3 :=
    ⟨year / 100, year % 100 / 4, year % 4, by omega, by omega, by omega, by omega, by omega,
      by omega, by omega⟩
  have hstart : yearStart (100 * c + 4 * q + r) = 36524 * c + 1461 * q + 365 * r := by
    simp only [yearStart]
    omega
  have hlong : day ≤ 364 ∨ (day = 365 ∧ r = 3 ∧ (q ≠ 24 ∨ c = 3)) := by
    simp only [yearStart] at h1
    omega
  intro dayOfEra
  have hdoe : dayOfEra = 36524 * c + 1461 * q + 365 * r + day := by
    rw [← hstart]
  clear_value dayOfEra
  have hcent : dayOfEra / 36524 - dayOfEra / 146096 = c := by
    have hin : 1461 * q + 365 * r + day ≤ 36523 ∨ (c = 3 ∧ dayOfEra = 146096) := by omega
    rcases hin with hin | ⟨rfl, rfl⟩ <;> omega
  omega

/-- The quotient by a cycle of five months finds the month. -/
theorem monthPrime_eq (month day : ℤ) (h0 : 0 ≤ day)
    (h1 : monthStart month + day < monthStart (month + 1)) :
    (5 * (monthStart month + day) + 2) / 153 = month := by
  simp only [monthStart] at *
  omega

/-- The inverse function gives back the March-based parts of a day number. -/
theorem gregorianDaysToDate_eq (year month day : ℤ) (hm : 0 ≤ month) (h0 : 0 < day)
    (hmonth : monthStart month + (day - 1) < monthStart (month + 1))
    (hyear : yearStart year + (monthStart month + (day - 1)) < yearStart (year + 1)) :
    gregorianDaysToDate (yearStart year + monthStart month + (day - 1) + 60) =
      ofMarch year month day := by
  have hms : 0 ≤ monthStart month := by simp only [monthStart]; omega
  have hys : 0 ≤ yearStart (year % 400) := by simp only [yearStart]; omega
  have hsucc : yearStart (year % 400) + (monthStart month + (day - 1))
      < yearStart (year % 400 + 1) := by
    simp only [yearStart] at *
    omega
  have hyoe := yearOfEra_eq (year % 400) (monthStart month + (day - 1)) (by omega) (by omega)
    (by omega) hsucc
  have hmp := monthPrime_eq month (day - 1) (by omega) hmonth
  unfold gregorianDaysToDate
  extract_lets z era dayOfEra yearOfEra dayOfYear monthPrime d m y yr
  have hz : z = year / 400 * 146097
      + (yearStart (year % 400) + (monthStart month + (day - 1))) := by
    simp only [z, yearStart_era year]
    ring
  have hera : era = year / 400 := by
    have := era_eq z 146097 (by decide)
    simp only [era, show z - 146097 + 1 = z - (146097 - 1) by ring, this]
    omega
  have hdoe : dayOfEra = yearStart (year % 400) + (monthStart month + (day - 1)) := by
    simp only [dayOfEra, hera, hz]
    ring
  have hyear : yearOfEra = year % 400 := by
    simp only [yearOfEra, hdoe, show (146097 : ℤ) - 1 = 146096 from rfl]
    have hnn : 0 ≤ yearStart (year % 400) + (monthStart month + (day - 1)) := by omega
    rw [Int.tdiv_eq_ediv_of_nonneg hnn, Int.tdiv_eq_ediv_of_nonneg hnn,
      Int.tdiv_eq_ediv_of_nonneg hnn, Int.tdiv_eq_ediv_of_nonneg (by omega), hyoe]
  have hdoy : dayOfYear = monthStart month + (day - 1) := by
    simp only [dayOfYear, hdoe, hyear]
    rw [Int.tdiv_eq_ediv_of_nonneg (by omega), Int.tdiv_eq_ediv_of_nonneg (by omega), yearStart]
    omega
  have hmonth : monthPrime = month := by
    simp only [monthPrime, hdoy]
    rw [Int.tdiv_eq_ediv_of_nonneg (by omega), hmp]
  have hd : d = day := by
    simp only [d, hdoy, hmonth]
    rw [Int.tdiv_eq_ediv_of_nonneg (by omega), monthStart]
    ring
  have hy : y = year := by
    omega
  simp only [yr, m, ofMarch, hd, hmonth, hy]

/-! ## Valid dates -/

/-- The last day of a month is the last before the next month or the next
March-based year starts. -/
theorem lastDayOfTheMonth_eq (date : Date) (h0 : 0 < date.month) (h1 : date.month < 13) :
    lastDayOfTheMonth date.year date.month =
      some (min (monthStart (marchMonth date + 1))
          (yearStart (marchYear date + 1) - yearStart (marchYear date))
        - monthStart (marchMonth date)) := by
  obtain ⟨year, month, day⟩ := date
  rw [yearStart_succ]
  interval_cases month <;>
    simp [lastDayOfTheMonth, marchMonth, marchYear, monthStart] <;> split_ifs <;> simp_all

theorem validDate_iff (date : Date) :
    validDate date = true ↔ (0 < date.month ∧ date.month < 13) ∧ 0 < date.day ∧
      monthStart (marchMonth date) + (date.day - 1) < monthStart (marchMonth date + 1) ∧
      yearStart (marchYear date) + (monthStart (marchMonth date) + (date.day - 1))
        < yearStart (marchYear date + 1) := by
  unfold validDate
  by_cases hm : 0 < date.month ∧ date.month < 13
  · rw [lastDayOfTheMonth_eq date hm.1 hm.2]
    simp
    omega
  · simp [hm]
    omega

/-- The day number of a valid date gives the date back. -/
theorem gregorianDaysToDate_dateToGregorianDays (date : Date) (hv : validDate date = true) :
    (dateToGregorianDays date).map gregorianDaysToDate = some date := by
  obtain ⟨⟨hm0, hm1⟩, hd, hmonth, hyear⟩ := (validDate_iff date).1 hv
  have hmp : 0 ≤ marchMonth date := by unfold marchMonth; split_ifs <;> omega
  rw [dateToGregorianDays_eq date hm0 hd, Option.map_some,
    gregorianDaysToDate_eq _ _ _ hmp hd hmonth hyear, ofMarch_march date hm0 hm1]

/-- Every day lies in a March-based year. -/
theorem exists_yearStart (day : ℤ) : ∃ year, yearStart year ≤ day ∧ day < yearStart (year + 1) := by
  have hbdd : ∃ bound, ∀ year, yearStart year ≤ day → year ≤ bound :=
    ⟨|day|, fun year h => by
      have := le_abs_self day
      have := abs_nonneg day
      simp only [yearStart] at h
      omega⟩
  have hne : ∃ year, yearStart year ≤ day :=
    ⟨-|day| - 1, by
      have := neg_abs_le day
      have := abs_nonneg day
      simp only [yearStart]
      omega⟩
  obtain ⟨year, hle, hmax⟩ := Int.exists_greatest_of_bdd hbdd hne
  refine ⟨year, hle, not_le.1 fun h => ?_⟩
  have := hmax _ h
  omega

theorem marchMonth_ofMarch (year month day : ℤ) (h0 : 0 ≤ month) (h1 : month < 12) :
    marchMonth (ofMarch year month day) = month ∧ marchYear (ofMarch year month day) = year := by
  interval_cases month <;> simp [ofMarch, marchYear, marchMonth]

theorem ofMarch_month (year month day : ℤ) (h0 : 0 ≤ month) (h1 : month < 12) :
    0 < (ofMarch year month day).month ∧ (ofMarch year month day).month < 13 := by
  simp only [ofMarch]
  split_ifs <;> omega

/-- Every integer is the day number of a valid date. -/
theorem exists_validDate (days : ℤ) :
    ∃ date, validDate date = true ∧ dateToGregorianDays date = some days := by
  obtain ⟨year, hle, hlt⟩ := exists_yearStart (days - 60)
  have hlen := yearStart_succ year
  set doy := days - 60 - yearStart year with hdoy
  obtain ⟨month, hmonth⟩ : ∃ month, month = (5 * doy + 2) / 153 := ⟨_, rfl⟩
  have hm0 : 0 ≤ month := by omega
  have hm1 : month < 12 := by omega
  have hms : monthStart month ≤ doy ∧ doy < monthStart (month + 1) := by
    simp only [monthStart]
    omega
  have hparts := marchMonth_ofMarch year month (doy - monthStart month + 1) hm0 hm1
  obtain ⟨hmo0, hmo1⟩ := ofMarch_month year month (doy - monthStart month + 1) hm0 hm1
  refine ⟨ofMarch year month (doy - monthStart month + 1), ?_, ?_⟩
  · rw [validDate_iff, hparts.1, hparts.2]
    simp only [ofMarch] at *
    omega
  · rw [dateToGregorianDays_eq _ hmo0 (by simp only [ofMarch]; omega), hparts.1, hparts.2]
    simp only [ofMarch, Option.some.injEq]
    omega

/-- The date of a day number is valid and has that number. -/
theorem gregorianDaysToDate_spec (days : ℤ) :
    validDate (gregorianDaysToDate days) = true ∧
      dateToGregorianDays (gregorianDaysToDate days) = some days := by
  obtain ⟨date, hv, hnum⟩ := exists_validDate days
  have hback := gregorianDaysToDate_dateToGregorianDays date hv
  rw [hnum, Option.map_some, Option.some.injEq] at hback
  rw [hback]
  exact ⟨hv, hnum⟩

/-! ## The day after -/

/-- The first of the month after a date's. -/
def nextMonth (date : Date) : Date :=
  if date.month < 12 then ⟨date.year, date.month + 1, 1⟩ else ⟨date.year + 1, 1, 1⟩

/-- The day after a date: the next day of its month, or the first of the next
month, which for December is in the next year. -/
def nextDay (date : Date) : Option Date :=
  (lastDayOfTheMonth date.year date.month).map fun last =>
    if date.day < last then ⟨date.year, date.month, date.day + 1⟩ else nextMonth date

theorem nextMonth_start (date : Date) (h0 : 0 < date.month) (h1 : date.month < 13) :
    yearStart (marchYear (nextMonth date)) + monthStart (marchMonth (nextMonth date)) =
      yearStart (marchYear date) + min (monthStart (marchMonth date + 1))
        (yearStart (marchYear date + 1) - yearStart (marchYear date)) := by
  obtain ⟨year, month, day⟩ := date
  have hlen := yearStart_succ (year - 1)
  have hlen' := yearStart_succ year
  rw [sub_add_cancel] at hlen
  interval_cases month <;>
    simp [nextMonth, marchMonth, marchYear, monthStart] <;> split_ifs at * <;> omega

theorem nextMonth_valid (date : Date) (h0 : 0 < date.month) (h1 : date.month < 13) :
    validDate (nextMonth date) = true := by
  obtain ⟨year, month, day⟩ := date
  interval_cases month <;> simp [nextMonth, validDate, lastDayOfTheMonth]
  -- February is left
  split <;> simp

theorem validDate.month_day {date : Date} (hv : validDate date = true) :
    0 < date.month ∧ 0 < date.day := by
  rw [validDate_iff] at hv
  exact ⟨hv.1.1, hv.2.1⟩

/-- The day after a valid date is valid and has the next day number. -/
theorem nextDay_spec (date : Date) (hv : validDate date = true) :
    ∃ next days, nextDay date = some next ∧ validDate next = true ∧
      dateToGregorianDays date = some days ∧ dateToGregorianDays next = some (days + 1) := by
  obtain ⟨⟨hm0, hm1⟩, hd, hmonth, hyear⟩ := (validDate_iff date).1 hv
  have hlast := lastDayOfTheMonth_eq date hm0 hm1
  have hnum := dateToGregorianDays_eq date hm0 hd
  by_cases hin : date.day < min (monthStart (marchMonth date + 1))
      (yearStart (marchYear date + 1) - yearStart (marchYear date)) - monthStart (marchMonth date)
  · have hnext : nextDay date = some ⟨date.year, date.month, date.day + 1⟩ := by
      simp only [nextDay, hlast, Option.map_some, if_pos hin]
    -- the day stays in the month, so the March-based parts do not move
    have hy : marchYear ⟨date.year, date.month, date.day + 1⟩ = marchYear date := rfl
    have hm : marchMonth ⟨date.year, date.month, date.day + 1⟩ = marchMonth date := rfl
    have hvalid : validDate ⟨date.year, date.month, date.day + 1⟩ = true := by
      rw [validDate_iff, hy, hm]
      simp only
      omega
    refine ⟨_, _, hnext, hvalid, hnum, ?_⟩
    rw [dateToGregorianDays_eq _ (validDate.month_day hvalid).1 (validDate.month_day hvalid).2,
      hy, hm]
    ring_nf
  · have hnext : nextDay date = some (nextMonth date) := by
      simp only [nextDay, hlast, Option.map_some, if_neg hin]
    have hvalid := nextMonth_valid date hm0 hm1
    refine ⟨_, _, hnext, hvalid, hnum, ?_⟩
    have hday : (nextMonth date).day = 1 := by unfold nextMonth; split_ifs <;> rfl
    rw [dateToGregorianDays_eq _ (validDate.month_day hvalid).1 (validDate.month_day hvalid).2,
      nextMonth_start date hm0 hm1, Option.some.injEq]
    omega

/-- Day numbers are a bijection between valid dates and the integers, and the
day after a date has the next number. -/
theorem gregorianDays_bijection :
    (∀ days, validDate (gregorianDaysToDate days) = true ∧
      dateToGregorianDays (gregorianDaysToDate days) = some days) ∧
    (∀ date, validDate date = true →
      (dateToGregorianDays date).map gregorianDaysToDate = some date) ∧
    (∀ date, validDate date = true → ∃ next days, nextDay date = some next ∧
      validDate next = true ∧ dateToGregorianDays date = some days ∧
      dateToGregorianDays next = some (days + 1)) :=
  ⟨gregorianDaysToDate_spec, gregorianDaysToDate_dateToGregorianDays, nextDay_spec⟩

/-- The last day of a leap February before the year 0, and the day after it. -/
theorem gregorianDays_bijection_leap_day :
    (dateToGregorianDays ⟨-4, 2, 29⟩).map gregorianDaysToDate = some ⟨-4, 2, 29⟩ ∧
    ∃ next days, nextDay ⟨-4, 2, 29⟩ = some next ∧ validDate next = true ∧
      dateToGregorianDays ⟨-4, 2, 29⟩ = some days ∧
      dateToGregorianDays next = some (days + 1) :=
  ⟨gregorianDays_bijection.2.1 ⟨-4, 2, 29⟩ (by decide),
    gregorianDays_bijection.2.2 ⟨-4, 2, 29⟩ (by decide)⟩

end Otp.Stdlib.Calendar
