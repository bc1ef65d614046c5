import PgTuning.Lib.ThreeWay
import PgTuning.Utils.Int8

/-!
# Intervals

An interval has months, days and microseconds, each in a field of its own. `interval_cmp_value`
folds them into one 64-bit number, a month being 30 days of 24 hours, and
`interval_justify_interval` carries them from one field to the next. Neither looks for an
overflow: `int32` and `int64` stand where one is possible.
-/

namespace PgTuning.Utils.Datetime

open Lib PgTuning.Utils.Int8 Int

structure Interval where
  time : Int
  day : Int
  month : Int
  deriving DecidableEq

/-- The fields have 64, 32 and 32 bits. -/
structure Interval.Valid (i : Interval) : Prop where
  time : InRange i.time
  day : InRange32 i.day
  month : InRange32 i.month

def usecsPerDay : Int := 86400000000
def usecsPerHour : Int := 3600000000
def daysPerMonth : Int := 30

def intervalCmpValue (interval : Interval) : Int :=
  let span := interval.time
  let span := int64 (span + int64 (int64 (interval.month * 30) * usecsPerDay))
  int64 (span + int64 (int64 (interval.day * 24) * usecsPerHour))

def threeWay (a b : Int) : Int := if a < b then -1 else if a > b then 1 else 0

def intervalCmpInternal (interval1 interval2 : Interval) : Int :=
  threeWay (intervalCmpValue interval1) (intervalCmpValue interval2)

def rot (x k : UInt32) : UInt32 := x <<< k ||| x >>> (32 - k)

def finalStep (x y k : UInt32) : UInt32 := (x ^^^ y) - rot y k

def hashUint32 (k : UInt32) : UInt32 :=
  let a := 0x9e3779b9 + 4 + 3923095
  let b := a
  let c := a
  let a := a + k
  let c := finalStep c b 14
  let a := finalStep a c 11
  let b := finalStep b a 25
  let c := finalStep c b 16
  let a := finalStep a c 4
  let b := finalStep b a 14
  finalStep c b 24

def hashint8 (val : Int) : UInt32 :=
  let lohalf := UInt32.ofInt val
  let hihalf := UInt32.ofInt (val / 2 ^ 32)
  hashUint32 (lohalf ^^^ if val ≥ 0 then hihalf else ~~~hihalf)

def intervalHash (interval : Interval) : UInt32 := hashint8 (intervalCmpValue interval)

/-- What is left of `t`, and the quotient. -/
def tmodulo (t u : Int) : Int × Int :=
  let q := t.tdiv u
  (if q ≠ 0 then t - q * u else t, q)

/-- Whole days of the time go to the days, whole months of the days to the months. -/
def carryWhole (span : Interval) : Interval :=
  let (time, wholeday) := tmodulo span.time usecsPerDay
  let day := int32 (span.day + wholeday)
  let wholemonth := day.tdiv daysPerMonth
  { time, day := day - wholemonth * daysPerMonth, month := int32 (span.month + wholemonth) }

/-- Days against the sign of the months borrow a month, and so does time where there is no day. -/
def borrowMonth (result : Interval) : Interval :=
  if result.month > 0 ∧ (result.day < 0 ∨ result.day = 0 ∧ result.time < 0) then
    { result with day := result.day + daysPerMonth, month := result.month - 1 }
  else if result.month < 0 ∧ (result.day > 0 ∨ result.day = 0 ∧ result.time > 0) then
    { result with day := result.day - daysPerMonth, month := result.month + 1 }
  else result

def borrowDay (result : Interval) : Interval :=
  if result.day > 0 ∧ result.time < 0 then
    { result with time := result.time + usecsPerDay, day := result.day - 1 }
  else if result.day < 0 ∧ result.time > 0 then
    { result with time := result.time - usecsPerDay, day := result.day + 1 }
  else result

def intervalJustifyInterval (span : Interval) : Interval :=
  borrowDay (borrowMonth (carryWhole span))

/-! ## The order -/

variable {i : Interval}

def Interval.span (i : Interval) : Int := i.time + i.day * 86400000000 + i.month * 2592000000000

/-- How often that number wraps around in 64 bits. -/
def Interval.wraps (i : Interval) : Int := (i.span + 2 ^ 63) / 2 ^ 64

theorem cmpValue_eq (i : Interval) : intervalCmpValue i = i.span - 2 ^ 64 * i.wraps := by
  have hBmod : intervalCmpValue i = int64 i.span := by
    simp only [intervalCmpValue, int64, add_bmod_bmod, bmod_add_bmod, bmod_mul_bmod,
      usecsPerDay, usecsPerHour]
    congr 1
    unfold Interval.span
    omega
  obtain ⟨k, hk⟩ := int64_wraps i.span
  have hRange := inRange_int64 i.span
  unfold Interval.wraps InRange at *
  omega

theorem cmpInternal_lawful : ThreeWay.Lawful intervalCmpInternal where
  swap i j := by
    unfold intervalCmpInternal threeWay
    split_ifs <;> omega
  trans {i j k} hij hjk := by
    unfold intervalCmpInternal threeWay at *
    split_ifs at * <;> omega

/-- **The order of intervals** is that of the exact numbers of microseconds if these are further
apart than what the greater one loses by wrapping around more often, in particular if both wrap
equally often. It is a total preorder in any case, and equal intervals have equal hash values. -/
theorem intervalCmpInternal_iff (i j : Interval) :
    (intervalCmpInternal i j = threeWay i.span j.span ↔
      (i.wraps < j.wraps → 2 ^ 64 * (j.wraps - i.wraps) < j.span - i.span) ∧
        (j.wraps < i.wraps → 2 ^ 64 * (i.wraps - j.wraps) < i.span - j.span)) ∧
    ThreeWay.Lawful intervalCmpInternal ∧
    (intervalCmpInternal i j = 0 → intervalHash i = intervalHash j) := by
  refine ⟨?_, cmpInternal_lawful, fun hZero => ?_⟩
  · have hi := cmpValue_eq i
    have hj := cmpValue_eq j
    -- of two exact numbers the one that wraps more often is the greater one
    have hLt : i.wraps < j.wraps → i.span < j.span := by
      unfold Interval.wraps
      omega
    have hGt : j.wraps < i.wraps → j.span < i.span := by
      unfold Interval.wraps
      omega
    unfold intervalCmpInternal threeWay
    constructor
    · intro h
      split_ifs at h <;> omega
    · rintro ⟨hUp, hDown⟩
      split_ifs <;> omega
  · have hEq : intervalCmpValue i = intervalCmpValue j := by
      unfold intervalCmpInternal threeWay at hZero
      split_ifs at hZero <;> omega
    rw [intervalHash, hEq, intervalHash]

/-- 178956970 years are less than no time at all. -/
theorem intervalCmpInternal_wrapped :
    intervalCmpInternal ⟨0, 0, 2147483640⟩ ⟨0, 0, 0⟩ = -1 ∧
      threeWay (Interval.span ⟨0, 0, 2147483640⟩) (Interval.span ⟨0, 0, 0⟩) = 1 := by
  decide

/-! ## Justified intervals -/

/-- The fields have one sign, and the smaller units stay below the next greater one. -/
structure Interval.Justified (i : Interval) : Prop where
  time : i.time.natAbs < 86400000000
  day : i.day.natAbs < 30
  sign : 0 ≤ i.month ∧ 0 ≤ i.day ∧ 0 ≤ i.time ∨ i.month ≤ 0 ∧ i.day ≤ 0 ∧ i.time ≤ 0

/-- The days, with the whole days of the time. -/
def Interval.wholeDays (i : Interval) : Int := i.day + i.time.tdiv usecsPerDay

/-- The months, with the whole months of the days. -/
def Interval.wholeMonths (i : Interval) : Int := i.month + i.wholeDays.tdiv daysPerMonth

/-- What is left behind a division that truncates towards zero. -/
theorem tdiv_rest (t : Int) {d : Int} (hd : 0 < d) :
    0 ≤ t ∧ 0 ≤ t - d * t.tdiv d ∧ t - d * t.tdiv d < d ∨
      t ≤ 0 ∧ -d < t - d * t.tdiv d ∧ t - d * t.tdiv d ≤ 0 := by
  have hSplit := mul_tdiv_add_tmod t d
  have hLt := tmod_lt_of_pos t hd
  have hGt := lt_tmod_of_pos t hd
  rcases le_total 0 t with h | h
  · have hSign := tmod_nonneg d h
    omega
  · have hSign := tmod_nonneg d (neg_nonneg_of_nonpos h)
    rw [neg_tmod] at hSign
    omega

theorem tmodulo_eq (t u : Int) : tmodulo t u = (t - u * t.tdiv u, t.tdiv u) := by
  dsimp only [tmodulo]
  split_ifs with h
  · rw [mul_comm]
  · rw [not_not.mp h, mul_zero, sub_zero]

/-- The days, and then the months, may wrap around; nothing else does. -/
theorem carryWhole_span (h : i.Valid) :
    (carryWhole i).span = i.span ↔ InRange32 i.wholeDays ∧ InRange32 i.wholeMonths := by
  obtain ⟨hTime, hDay, hMonth⟩ := h
  obtain ⟨kd, hkd⟩ := int32_wraps i.wholeDays
  obtain ⟨km, hkm⟩ := int32_wraps (i.month + (int32 i.wholeDays).tdiv daysPerMonth)
  have hkdRange := inRange32_int32 i.wholeDays
  have hkmRange := inRange32_int32 (i.month + (int32 i.wholeDays).tdiv daysPerMonth)
  have hSpan : (carryWhole i).span = i.span + 2 ^ 32 * 86400000000 * (kd + 30 * km) := by
    simp only [carryWhole, tmodulo_eq, Interval.span]
    rw [Interval.wholeDays] at hkd hkm
    rw [hkm, hkd]
    unfold usecsPerDay daysPerMonth
    omega
  have hRest := tdiv_rest i.time (d := usecsPerDay) (by decide)
  have hkdSmall : i.wholeDays.natAbs ≤ 2 ^ 31 + 106751992 := by
    unfold Interval.wholeDays InRange InRange32 usecsPerDay at *
    omega
  rw [hkm, hkd] at hkmRange
  rw [hkd] at hkdRange
  by_cases hZero : kd = 0
  · -- the days fit, so the months are the whole months
    rw [hZero, zero_mul, add_zero] at hkdRange hkmRange
    unfold Interval.wholeMonths InRange32 at *
    omega
  · unfold InRange32 at *
    omega

/-- Borrowing takes nothing away, and evens out the signs. -/
theorem borrow_spec (hTime : i.time.natAbs < 86400000000) (hDay : i.day.natAbs < 30)
    (hMonth : InRange32 i.month) :
    (borrowDay (borrowMonth i)).span = i.span ∧ InRange32 (borrowDay (borrowMonth i)).month ∧
      (borrowDay (borrowMonth i)).Justified := by
  unfold borrowDay borrowMonth usecsPerDay daysPerMonth Interval.span InRange32 at *
  split_ifs
  all_goals
    refine ⟨?_, ?_, ?_, ?_, ?_⟩ <;> try dsimp only at *
    all_goals omega

theorem tdiv_eq_zero {t d : Int} (h : t.natAbs < d.natAbs) : t.tdiv d = 0 := by
  rw [← natAbs_eq_zero, natAbs_tdiv]
  exact Nat.div_eq_of_lt h

theorem Interval.Justified.justify_eq (h : i.Justified) (hMonth : InRange32 i.month) :
    intervalJustifyInterval i = i := by
  obtain ⟨hTime, hDay, hSign⟩ := h
  have hCarry : carryWhole i = i := by
    have hDays : int32 i.day = i.day := int32_eq_self ⟨by omega, by omega⟩
    simp only [carryWhole, tmodulo_eq, tdiv_eq_zero (d := usecsPerDay) hTime, add_zero, hDays,
      tdiv_eq_zero (d := daysPerMonth) hDay, int32_eq_self hMonth, mul_zero, zero_mul,
      sub_zero]
  rw [intervalJustifyInterval, hCarry, borrowMonth, if_neg (by omega), if_neg (by omega), borrowDay,
    if_neg (by omega), if_neg (by omega)]

/-- **Justifying an interval**: the fields come out with one sign and in their bounds, and a second
time changes nothing. The value is kept if days and months, with what is carried to them, fit in 32
bits, and not otherwise. -/
theorem intervalJustifyInterval_iff (i : Interval) (h : i.Valid) :
    ((intervalJustifyInterval i).span = i.span ↔ InRange32 i.wholeDays ∧ InRange32 i.wholeMonths) ∧
      (intervalJustifyInterval i).Justified ∧
      intervalJustifyInterval (intervalJustifyInterval i) = intervalJustifyInterval i := by
  have hTime := tdiv_rest i.time (d := usecsPerDay) (by decide)
  have hDay := tdiv_rest (int32 (i.day + i.time.tdiv usecsPerDay)) (d := daysPerMonth) (by decide)
  have hSmall : (carryWhole i).time.natAbs < 86400000000 ∧ (carryWhole i).day.natAbs < 30 := by
    simp only [carryWhole, tmodulo_eq]
    unfold usecsPerDay daysPerMonth at *
    omega
  obtain ⟨hSpan, hRange, hJustified⟩ := borrow_spec hSmall.1 hSmall.2 (inRange32_int32 _)
  refine ⟨?_, hJustified, hJustified.justify_eq hRange⟩
  rw [← carryWhole_span h, ← hSpan, intervalJustifyInterval]

/-- The greatest number of days and 24 hours come out negative. -/
theorem intervalJustifyInterval_wrapped :
    Interval.Valid ⟨86400000000, 2147483647, 0⟩ ∧
      intervalJustifyInterval ⟨86400000000, 2147483647, 0⟩ = ⟨0, -8, -71582788⟩ ∧
      Interval.span ⟨0, -8, -71582788⟩ ≠ Interval.span ⟨86400000000, 2147483647, 0⟩ :=
  ⟨⟨by decide, by decide, by decide⟩, by decide, by decide⟩

theorem intervalJustifyInterval_mixed :
    (intervalJustifyInterval ⟨-1, 30, 0⟩).span = Interval.span ⟨-1, 30, 0⟩ :=
  (intervalJustifyInterval_iff ⟨-1, 30, 0⟩ ⟨by decide, by decide, by decide⟩).1.mpr
    ⟨by decide, by decide⟩

end PgTuning.Utils.Datetime
