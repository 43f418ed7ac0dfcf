import Otp.Stdlib.Calendar

/-!
# ISO week numbers (`calendar.erl`)

`iso_week_number/1` compares the day with the Mondays on which week 1 of its year and of the next
year start.  The ISO rule looks at the Thursday of the week instead: the week belongs to the year
of its Thursday and is numbered by the Thursdays of that year.
-/

namespace Otp.Stdlib.Calendar

/-! ## The source -/

/-- `mod/2`; the one recursive call adds `d` to a negative remainder. -/
def mod (n d : ℤ) : ℤ := if n.tmod d < 0 then (n.tmod d + d).tmod d else n.tmod d

/-- `day_of_the_week/1`: Monday is 1, Sunday is 7. -/
def dayOfTheWeek (date : Date) : Option ℤ :=
  (dateToGregorianDays date).map fun days => mod (days + 5) 7 + 1

/-- `gregorian_days_of_iso_w01_1/1`: the Monday of week 1. -/
def gregorianDaysOfIsoW01_1 (year : ℤ) : Option ℤ := do
  let d0101 ← dateToGregorianDays ⟨year, 1, 1⟩
  let dow ← dayOfTheWeek ⟨year, 1, 1⟩
  if dow ≤ 4 then some (d0101 - dow + 1) else some (d0101 + 7 - dow + 1)

/-- `iso_week_number/1`. -/
def isoWeekNumber (date : Date) : Option (ℤ × ℤ) := do
  let d ← dateToGregorianDays date
  let w01_1Year ← gregorianDaysOfIsoW01_1 date.year
  let w01_1NextYear ← gregorianDaysOfIsoW01_1 (date.year + 1)
  if w01_1Year ≤ d ∧ d < w01_1NextYear then
    some (date.year, (d - w01_1Year).tdiv 7 + 1)
  else if d < w01_1Year then
    let pwn ← do
      if (← dayOfTheWeek ⟨date.year - 1, 1, 1⟩) = 4 then some 53
      else if (← dayOfTheWeek ⟨date.year - 1, 12, 31⟩) = 4 then some 53
      else some 52
    some (date.year - 1, pwn)
  else some (date.year + 1, 1)

/-! ## The Thursday rule -/

/-- The Thursday of the week that a day is in; weeks are counted from Monday, 29 December 1969,
three days before the first day of the system time. -/
def thursday (days : ℤ) : ℤ := days - (days - (719528 - 3)) % 7 + 3

/-- The number of 1 January. -/
def newYear (year : ℤ) : ℤ := yearStart (year - 1) + 366

theorem dateToGregorianDays_newYear (year : ℤ) :
    dateToGregorianDays ⟨year, 1, 1⟩ = some (newYear year) := by
  rw [dateToGregorianDays_eq _ (by simp) (by simp)]
  simp [marchYear, marchMonth, monthStart, newYear]
  ring

theorem newYear_succ (year : ℤ) :
    newYear (year + 1) = newYear year + 365 ∨ newYear (year + 1) = newYear year + 366 := by
  have hlen := yearStart_succ (year - 1)
  simp only [newYear, show year + 1 - 1 = year - 1 + 1 by ring]
  split_ifs at hlen <;> omega

variable {date : Date} {days : ℤ}

/-- The days of a calendar year. -/
theorem year_bounds (hv : validDate date = true) (hdays : dateToGregorianDays date = some days) :
    newYear date.year ≤ days ∧ days < newYear (date.year + 1) := by
  obtain ⟨⟨hm0, hm1⟩, hd, hmonth, hyear⟩ := (validDate_iff date).1 hv
  rw [dateToGregorianDays_eq date hm0 hd, Option.some.injEq] at hdays
  have hlen := newYear_succ date.year
  have hnext : newYear (date.year + 1) = yearStart date.year + 366 := by simp [newYear]
  simp only [marchYear, marchMonth, monthStart] at hdays hmonth hyear
  by_cases hm : date.month ≤ 2
  · simp only [hm, not_lt.2 hm, if_true, if_false, sub_add_cancel] at hdays hmonth hyear
    simp only [newYear] at hlen ⊢
    omega
  · simp only [hm, not_le.1 hm, if_true, if_false] at hdays hmonth hyear
    omega

theorem newYear_strictMono : StrictMono newYear :=
  strictMono_int_of_lt_succ fun year => by have := newYear_succ year; omega

theorem year_eq {year : ℤ} (h : newYear year ≤ days) (h1 : days < newYear (year + 1)) :
    (gregorianDaysToDate days).year = year := by
  obtain ⟨hv, hdays⟩ := gregorianDaysToDate_spec days
  obtain ⟨hlow, hhigh⟩ := year_bounds hv hdays
  have hle := newYear_strictMono.lt_iff_lt.1 (hlow.trans_lt h1)
  have hge := newYear_strictMono.lt_iff_lt.1 (h.trans_lt hhigh)
  omega

theorem mod_seven (n : ℤ) : mod n 7 = n % 7 := by
  simp only [mod, Int.tmod_eq_emod]
  split_ifs <;> omega

theorem dayOfTheWeek_eq (h : dateToGregorianDays date = some days) :
    dayOfTheWeek date = some ((days + 5) % 7 + 1) := by
  rw [dayOfTheWeek, h, Option.map_some, mod_seven]

/-- Week 1 is the week of the first Thursday of the year. -/
theorem gregorianDaysOfIsoW01_1_eq (year : ℤ) :
    ∃ monday, gregorianDaysOfIsoW01_1 year = some monday ∧ thursday monday = monday + 3 ∧
      newYear year ≤ monday + 3 ∧ monday + 3 < newYear year + 7 := by
  have hjan := dateToGregorianDays_newYear year
  rw [gregorianDaysOfIsoW01_1, dayOfTheWeek_eq hjan, hjan]
  simp only [Option.bind_eq_bind, Option.bind_some, thursday]
  split_ifs
  · exact ⟨_, rfl, by omega, by omega, by omega⟩
  · exact ⟨_, rfl, by omega, by omega, by omega⟩

/-- **The Thursday rule.** -/
theorem isoWeekNumber_thursday (date : Date) (hv : validDate date = true) :
    ∃ days d0101, dateToGregorianDays date = some days ∧
      dateToGregorianDays ⟨(gregorianDaysToDate (thursday days)).year, 1, 1⟩ = some d0101 ∧
      isoWeekNumber date =
        some ((gregorianDaysToDate (thursday days)).year, (thursday days - d0101) / 7 + 1) := by
  obtain ⟨hm0, hd⟩ := validDate.month_day hv
  obtain ⟨days, hdays⟩ : ∃ days, dateToGregorianDays date = some days :=
    ⟨_, dateToGregorianDays_eq date hm0 hd⟩
  obtain ⟨hlow, hhigh⟩ := year_bounds hv hdays
  obtain ⟨monday, hmonday, hthis, hfirst, hfirst'⟩ := gregorianDaysOfIsoW01_1_eq date.year
  obtain ⟨monday', hmonday', hthis', hnext, hnext'⟩ := gregorianDaysOfIsoW01_1_eq (date.year + 1)
  refine ⟨days, _, hdays, dateToGregorianDays_newYear _, ?_⟩
  rw [isoWeekNumber, hdays, hmonday, hmonday']
  simp only [Option.bind_eq_bind, Option.bind_some]
  split_ifs with hin hbefore
  · -- the Thursday is in the year of the date
    have hyear : (gregorianDaysToDate (thursday days)).year = date.year := by
      refine year_eq ?_ ?_ <;> simp only [thursday] at * <;> omega
    rw [hyear, Int.tdiv_eq_ediv_of_nonneg (by omega)]
    simp only [thursday] at *
    congr 2
    omega
  · -- the Thursday is before 1 January; the last Thursday of a year is in week 52 or 53
    have hlen := newYear_succ (date.year - 1)
    rw [sub_add_cancel] at hlen
    have hyear : (gregorianDaysToDate (thursday days)).year = date.year - 1 := by
      refine year_eq ?_ ?_ <;> simp only [thursday, sub_add_cancel] at * <;> omega
    have hjan := dateToGregorianDays_newYear (date.year - 1)
    have hdec : dateToGregorianDays ⟨date.year - 1, 12, 31⟩ = some (newYear date.year - 1) := by
      rw [dateToGregorianDays_eq _ (by simp) (by simp)]
      simp [marchYear, marchMonth, monthStart, newYear]
      ring
    rw [hyear, dayOfTheWeek_eq hjan, dayOfTheWeek_eq hdec]
    simp only [Option.bind_some]
    simp only [thursday] at *
    split_ifs <;> simp only [Option.some.injEq, Prod.mk.injEq, true_and] <;> omega
  · -- the Thursday is after 31 December
    have hlen := newYear_succ (date.year + 1)
    have hyear : (gregorianDaysToDate (thursday days)).year = date.year + 1 := by
      refine year_eq ?_ ?_ <;> simp only [thursday] at * <;> omega
    rw [hyear]
    simp only [thursday] at *
    congr 2
    omega

/-- A Saturday that is still in week 52 of the year before. -/
theorem isoWeekNumber_thursday_january :
    validDate ⟨2011, 1, 1⟩ = true ∧ ∃ days d0101, dateToGregorianDays ⟨2011, 1, 1⟩ = some days ∧
      dateToGregorianDays ⟨(gregorianDaysToDate (thursday days)).year, 1, 1⟩ = some d0101 ∧
      isoWeekNumber ⟨2011, 1, 1⟩ =
        some ((gregorianDaysToDate (thursday days)).year, (thursday days - d0101) / 7 + 1) :=
  ⟨by decide, isoWeekNumber_thursday ⟨2011, 1, 1⟩ (by decide)⟩

end Otp.Stdlib.Calendar
