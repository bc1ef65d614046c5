import PgTuning.Utils.Datetime
import PgTuning.Utils.Interval

/-!
# Timestamps

A timestamp counts the microseconds since the start of 2000. `timestamp2tm` and `tm2timestamp`
convert it to and from a date and a time of day.
-/

namespace PgTuning.Utils.Datetime

open PgTuning.Utils.Int8 Option

/-- `struct pg_tm`, with `fsec`. -/
structure Tm where
  date : Date
  hour : Int
  min : Int
  sec : Int
  fsec : Int

def usecsPerMinute : Int := 60000000
def usecsPerSec : Int := 1000000
def postgresEpochJdate : Int := 2451545

def IsValidJulian (d : Date) : Prop :=
  (d.year > -4713 ∨ d.year = -4713 ∧ (d.month > 11 ∨ d.month = 11 ∧ d.day ≥ 24)) ∧ d.year < 5874898

instance (d : Date) : Decidable (IsValidJulian d) := inferInstanceAs (Decidable (_ ∧ _))

def time2t (tm : Tm) : Int := ((tm.hour * 60 + tm.min) * 60 + tm.sec) * usecsPerSec + tm.fsec

def tm2timestamp (tm : Tm) : Option Int :=
  if ¬IsValidJulian tm.date then none
  else
    let date := date2j tm.date.year tm.date.month tm.date.day - postgresEpochJdate
    let time := time2t tm
    let result := int64 (int64 (date * usecsPerDay) + time)
    if (int64 (result - time)).tdiv usecsPerDay ≠ date then none
    else if result < 0 ∧ date ≥ 0 ∨ result ≥ 0 ∧ date < 0 then none
    else some result

def dt2time (date : Date) (time : Int) : Tm :=
  let hour := time.tdiv usecsPerHour
  let time := time - hour * usecsPerHour
  let min := time.tdiv usecsPerMinute
  let time := time - min * usecsPerMinute
  let sec := time.tdiv usecsPerSec
  { date, hour, min, sec, fsec := time - sec * usecsPerSec }

def timestamp2tm (dt : Int) : Option Tm :=
  let (time, date) := tmodulo dt usecsPerDay
  let (time, date) := if time < 0 then (time + usecsPerDay, date - 1) else (time, date)
  let date := date + postgresEpochJdate
  if date < 0 ∨ date > 2147483647 then none else some (dt2time (j2date date) time)

/-! ## Packing -/

variable {tm : Tm} {dt : Int}

/-- The true number of microseconds. -/
def Tm.usecs (tm : Tm) : Int := (tm.date.number - 2451545) * 86400000000 + time2t tm

theorem isValidJulian_iff {d : Date} (h : d.Valid) :
    IsValidJulian d ↔ 0 ≤ d.number ∧ d.number < 2147483494 := by
  obtain ⟨⟨h1, h2⟩, h3, h4⟩ := h
  rw [monthLength_eq _ h1 h2] at h4
  unfold IsValidJulian Date.number base isleap at *
  simp only [decide_eq_true_eq] at *
  -- at the first and the last year the bounds are exact
  by_cases hFirst : d.year = -4713
  · rw [hFirst]
    split_ifs at * <;> omega
  by_cases hLast : d.year = 5874898
  · rw [hLast]
    split_ifs at * <;> omega
  · split_ifs at * <;> omega

/-- The checks behind the multiplication find every overflow, and one day more. -/
theorem tm2timestamp_eq (hMonth : 1 ≤ tm.date.month) (hNumber : 0 ≤ tm.date.number)
    (hTime : 0 ≤ time2t tm) (hTime' : time2t tm ≤ 86400000000) :
    tm2timestamp tm = if IsValidJulian tm.date ∧ InRange tm.usecs ∧
      ¬(tm.date.number = 2451544 ∧ time2t tm = 86400000000) then some tm.usecs else none := by
  unfold tm2timestamp
  by_cases hJulian : IsValidJulian tm.date
  · rw [date2j_eq hMonth (by unfold IsValidJulian at hJulian; omega)]
    simp only [hJulian, not_true_eq_false, if_false, true_and]
    rw [show postgresEpochJdate = 2451545 from rfl, show usecsPerDay = 86400000000 from rfl]
    unfold Tm.usecs
    obtain ⟨n, hn⟩ : ∃ n, tm.date.number - 2451545 = n := ⟨_, rfl⟩
    rw [hn]
    generalize time2t tm = t at *
    have hSum : int64 (int64 (n * 86400000000) + t) = int64 (n * 86400000000 + t) :=
      Int.bmod_add_bmod
    have hBack : int64 (int64 (n * 86400000000 + t) - t) = int64 (n * 86400000000) := by
      unfold int64
      rw [Int.bmod_sub_bmod, Int.add_sub_cancel]
    rw [hSum, hBack]
    obtain ⟨j, hj⟩ := int64_wraps (n * 86400000000)
    obtain ⟨k, hk⟩ := int64_wraps (n * 86400000000 + t)
    have hjRange := inRange_int64 (n * 86400000000)
    have hkRange := inRange_int64 (n * 86400000000 + t)
    have hRest := tdiv_rest (int64 (n * 86400000000)) (d := 86400000000) (by decide)
    unfold InRange at *
    split_ifs
    · omega
    · rfl
    · omega
    · rfl
    · rw [some.injEq]
      omega
    · omega
  · simp only [hJulian, not_false_eq_true, if_true, false_and, if_false]

theorem timestamp2tm_eq (dt : Int) : timestamp2tm dt =
    if 0 ≤ dt / 86400000000 + 2451545 ∧ dt / 86400000000 + 2451545 < 2 ^ 31 then
      some (dt2time (j2date (dt / 86400000000 + 2451545)) (dt % 86400000000))
    else none := by
  have hRest := tdiv_rest dt (d := 86400000000) (by decide)
  have hSplit : (if dt - 86400000000 * dt.tdiv 86400000000 < 0 then
      (dt - 86400000000 * dt.tdiv 86400000000 + 86400000000, dt.tdiv 86400000000 - 1)
      else (dt - 86400000000 * dt.tdiv 86400000000, dt.tdiv 86400000000)) =
      (dt % 86400000000, dt / 86400000000) := by
    split_ifs <;> rw [Prod.mk.injEq] <;> omega
  simp only [timestamp2tm, tmodulo_eq, show postgresEpochJdate = 2451545 from rfl,
    show usecsPerDay = 86400000000 from rfl, hSplit]
  split_ifs <;> first | rfl | omega

theorem time2t_dt2time (d : Date) (time : Int) : time2t (dt2time d time) = time := by
  unfold dt2time time2t usecsPerHour usecsPerMinute usecsPerSec
  dsimp only
  omega

/-- What `timestamp2tm` accepts. -/
theorem timestamp2tm_some (hTm : timestamp2tm dt = some tm) :
    tm.date.Valid ∧ (0 ≤ tm.date.number ∧ tm.date.number < 2 ^ 31) ∧
      tm.date.number = dt / 86400000000 + 2451545 ∧ time2t tm = dt % 86400000000 := by
  rw [timestamp2tm_eq, ite_none_right_eq_some, some.injEq] at hTm
  obtain ⟨hRange, rfl⟩ := hTm
  obtain ⟨hValid, hNumber⟩ := number_j2date hRange.1 hRange.2
  rw [← hNumber] at hRange
  exact ⟨hValid, hRange, hNumber, time2t_dt2time _ _⟩

theorem tm2timestamp_timestamp2tm (h : InRange dt) (hTm : timestamp2tm dt = some tm) :
    tm2timestamp tm = some dt := by
  obtain ⟨hValid, hRange, hNumber, hTime⟩ := timestamp2tm_some hTm
  have hUsecs : tm.usecs = dt := by
    unfold Tm.usecs
    omega
  rw [tm2timestamp_eq hValid.month.1 hRange.1 (by omega) (by omega), hUsecs, if_pos]
  refine ⟨(isValidJulian_iff hValid).mpr ⟨hRange.1, ?_⟩, h, by omega⟩
  unfold InRange at h
  omega

/-- **Packing a timestamp**: `tm2timestamp` stores the true number of microseconds if that fits in
64 bits and fails otherwise, except that it fails for midnight at the end of 1999; it takes back
what `timestamp2tm` makes of a timestamp. -/
theorem tm2timestamp_iff (tm : Tm) (hDate : tm.date.Valid) (hJulian : IsValidJulian tm.date)
    (hTime : 0 ≤ tm.hour ∧ 0 ≤ tm.min ∧ 0 ≤ tm.sec ∧ 0 ≤ tm.fsec)
    (hTime' : time2t tm ≤ 86400000000) :
    (tm2timestamp tm = (if InRange tm.usecs then some tm.usecs else none) ↔
      ¬(tm.date = ⟨1999, 12, 31⟩ ∧ time2t tm = 86400000000)) ∧
    ∀ dt tm', InRange dt → timestamp2tm dt = some tm' → tm2timestamp tm' = some dt := by
  refine ⟨?_, fun dt tm' => tm2timestamp_timestamp2tm⟩
  have hLast : tm.date = ⟨1999, 12, 31⟩ ↔ tm.date.number = 2451544 :=
    ⟨fun h => by rw [h]; decide, fun h => number_inj hDate ⟨by decide, by decide⟩ h⟩
  have hNonneg : 0 ≤ time2t tm := by
    unfold time2t usecsPerSec
    omega
  rw [tm2timestamp_eq hDate.month.1 ((isValidJulian_iff hDate).mp hJulian).1 hNonneg hTime', hLast]
  by_cases hEnd : tm.date.number = 2451544 ∧ time2t tm = 86400000000
  · have hZero : tm.usecs = 0 := by
      unfold Tm.usecs
      omega
    rw [hZero]
    simp [hEnd, InRange]
  · simp only [hJulian, hEnd, not_false_eq_true, and_true, true_and]

/-- 1999-12-31 23:59:59.999999. -/
theorem tm2timestamp_iff_lastMicrosecond :
    tm2timestamp ⟨⟨1999, 12, 31⟩, 23, 59, 59, 999999⟩ = some (-1) :=
  (tm2timestamp_iff _ ⟨by decide, by decide⟩ (by decide) (by decide) (by decide)).1.mpr (by decide)

/-- 1999-12-31 24:00:00. -/
theorem tm2timestamp_lastDay :
    tm2timestamp ⟨⟨1999, 12, 31⟩, 24, 0, 0, 0⟩ = none ∧
      Tm.usecs ⟨⟨1999, 12, 31⟩, 24, 0, 0, 0⟩ = 0 := by
  decide

end PgTuning.Utils.Datetime
