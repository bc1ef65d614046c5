import PgTuning.Utils.Datetime

/-!
# ISO weeks

An ISO year begins with the Monday of the week that contains January 4. `date2isoweek` and
`date2isoyear` each find the year a date belongs to, which may be the one before or after its own.
-/

namespace PgTuning.Utils.Datetime

def j2day (date : Int) : Int := uint32 (uint32 date + 1) % 7

/-- The Monday of the first week: `day4 - day0`. -/
def firstMonday (year : Int) : Int :=
  let day4 := date2j year 1 4
  let day0 := j2day (day4 - 1)
  day4 - day0

def isoweek2j (year week : Int) : Int := (week - 1) * 7 + firstMonday year

def isoweekdate2date (isoweek isowday year : Int) : Date :=
  j2date (isoweek2j year isoweek + (isowday - 1))

/-- The field `ISODOW` of a timestamp. -/
def isodow (year mon mday : Int) : Int :=
  let result := j2day (date2j year mon mday)
  if result = 0 then 7 else result

def date2isoweek (year mon mday : Int) : Int :=
  let dayn := date2j year mon mday
  let start := if dayn < firstMonday year then firstMonday (year - 1) else firstMonday year
  let result := (dayn - start).tdiv 7 + 1
  if result ≥ 52 ∧ dayn ≥ firstMonday (year + 1) then
    (dayn - firstMonday (year + 1)).tdiv 7 + 1
  else result

def date2isoyear (year mon mday : Int) : Int :=
  let dayn := date2j year mon mday
  let (start, year) :=
    if dayn < firstMonday year then (firstMonday (year - 1), year - 1) else (firstMonday year, year)
  let result := (dayn - start).tdiv 7 + 1
  if result ≥ 52 ∧ dayn ≥ firstMonday (year + 1) then year + 1 else year

/-- The number of January 4. -/
def fourth (y : Int) : Int := base (y + 4799) - 31735

theorem date2j_fourth {y : Int} (h : -4799 ≤ y) : date2j y 1 4 = fourth y := by
  unfold date2j fourth base
  simp (disch := omega) only [Int.tdiv_eq_ediv_of_nonneg, if_neg (show ¬(1 : Int) > 2 by decide)]
  omega

theorem j2day_eq {n : Int} (h : 0 ≤ n) (h' : n < 2 ^ 31) : j2day n = (n + 1) % 7 := by
  unfold j2day uint32
  omega

theorem firstMonday_eq {y : Int} (h : -4712 ≤ y) (h' : y ≤ 5874897) :
    firstMonday y = fourth y - fourth y % 7 := by
  have hRange : 1 ≤ fourth y ∧ fourth y < 2 ^ 31 := by
    unfold fourth base
    omega
  simp only [firstMonday, date2j_fourth (show -4799 ≤ y by omega)]
  rw [j2day_eq (by omega) (by omega), Int.sub_add_cancel]

theorem fourth_succ (y : Int) :
    fourth (y + 1) = fourth y + 365 ∨ fourth (y + 1) = fourth y + 366 := by
  unfold fourth base
  omega

variable {d : Date}

theorem number_year (h : d.Valid) :
    fourth d.year - 3 ≤ d.number ∧ d.number < fourth (d.year + 1) - 3 := by
  obtain ⟨⟨h1, h2⟩, h3, h4⟩ := h
  rw [monthLength_eq _ h1 h2] at h4
  unfold Date.number fourth base isleap at *
  simp only [decide_eq_true_eq] at *
  split_ifs at * <;> omega

/-- Both routines agree on the year whose weeks contain the date. -/
theorem isoYear_spec (h : d.Valid) (hLow : 366 ≤ d.number) (hHigh : d.number ≤ 2147483000) :
    ∃ y, date2isoyear d.year d.month d.day = y ∧ -4712 ≤ y ∧ y ≤ 5874897 ∧
      fourth y - fourth y % 7 ≤ d.number ∧ d.number < fourth (y + 1) - fourth (y + 1) % 7 ∧
      date2isoweek d.year d.month d.day = (d.number - (fourth y - fourth y % 7)) / 7 + 1 := by
  obtain ⟨hStart, hEnd⟩ := number_year h
  have hYear : -4712 ≤ d.year ∧ d.year < 5874897 := by
    unfold fourth base at hStart hEnd
    omega
  have hPrev := fourth_succ (d.year - 1)
  have hThis := fourth_succ d.year
  rw [Int.sub_add_cancel] at hPrev
  unfold date2isoyear date2isoweek
  have hFirst := firstMonday_eq hYear.1 (by omega)
  have hNextFirst := firstMonday_eq (y := d.year + 1) (by omega) (by omega)
  rw [date2j_eq h.month.1 (by omega), hFirst]
  by_cases hBefore : d.number < fourth d.year - fourth d.year % 7
  · have hPrevYear : -4711 ≤ d.year := by
      unfold fourth base at hBefore
      omega
    simp only [if_pos hBefore, Int.sub_add_cancel, hFirst,
      firstMonday_eq (y := d.year - 1) (by omega) (by omega)]
    rw [if_neg (by omega), if_neg (by omega), Int.tdiv_eq_ediv_of_nonneg (by omega)]
    exact ⟨_, rfl, by omega, by omega, by omega, by rw [Int.sub_add_cancel]; omega, rfl⟩
  · simp only [if_neg hBefore, hNextFirst]
    by_cases hNext : d.number < fourth (d.year + 1) - fourth (d.year + 1) % 7
    · rw [if_neg (by omega), if_neg (by omega), Int.tdiv_eq_ediv_of_nonneg (by omega)]
      exact ⟨_, rfl, by omega, by omega, by omega, hNext, rfl⟩
    · have hAfter := fourth_succ (d.year + 1)
      rw [Int.tdiv_eq_ediv_of_nonneg (by omega), Int.tdiv_eq_ediv_of_nonneg (by omega),
        if_pos (by omega), if_pos (by omega)]
      exact ⟨_, rfl, by omega, by omega, by omega, by omega, rfl⟩

/-- **ISO week dates**: a date is found again from its ISO year, week and weekday. Weeks are
numbered from 1 to 53, and week 1 is the one that January 4 falls in; a week is `n / 7`, since day
0 is a Monday. -/
theorem isoWeekDates (d : Date) (h : d.Valid) (hLow : 366 ≤ d.number)
    (hHigh : d.number ≤ 2147483000) :
    let year := date2isoyear d.year d.month d.day
    let week := date2isoweek d.year d.month d.day
    isoweekdate2date week (isodow d.year d.month d.day) year = d ∧ 1 ≤ week ∧ week ≤ 53 ∧
      (week = 1 ↔ date2j d.year d.month d.day / 7 = date2j year 1 4 / 7) := by
  obtain ⟨y, hyear, hLeast, hMost, hStart, hEnd, hWeek⟩ := isoYear_spec h hLow hHigh
  have hNext := fourth_succ y
  have hDate := date2j_eq h.month.1 (by have := h.year_bounds (by omega) (by omega); omega)
  dsimp only
  rw [hyear, hWeek, date2j_fourth (by omega)]
  refine ⟨?_, by omega, by omega, by omega⟩
  have hDay : isoweek2j y ((d.number - (fourth y - fourth y % 7)) / 7 + 1) +
      (isodow d.year d.month d.day - 1) = d.number := by
    simp only [isoweek2j, isodow, hDate, j2day_eq (show 0 ≤ d.number by omega) (by omega),
      firstMonday_eq hLeast (by omega)]
    split_ifs <;> omega
  rw [isoweekdate2date, hDay]
  obtain ⟨hValid, hNumber⟩ : (j2date d.number).Valid ∧ (j2date d.number).number = d.number :=
    number_j2date (by omega) (by omega)
  exact number_inj hValid h hNumber

theorem isoWeekDates_newYear : isoweekdate2date (date2isoweek 2000 1 1) (isodow 2000 1 1)
    (date2isoyear 2000 1 1) = ⟨2000, 1, 1⟩ :=
  (isoWeekDates ⟨2000, 1, 1⟩ ⟨by decide, by decide⟩ (by decide) (by decide)).1

end PgTuning.Utils.Datetime
