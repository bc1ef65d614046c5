import Mathlib.Tactic.IntervalCases
import PgTuning.Utils.Int8

/-!
# Julian days

`date2j` and `j2date` convert between dates of the proleptic Gregorian calendar and day numbers.
The proofs count years from March, so that the leap day is the last one of its year, and the
length of every month but that last one comes from the quotients `7834 * m / 256`.
-/

namespace PgTuning.Utils.Datetime

open PgTuning.Utils.Int8 (InRange32)

structure Date where
  year : Int
  month : Int
  day : Int
  deriving DecidableEq

def isleap (y : Int) : Bool := y % 4 = 0 ∧ (y % 100 ≠ 0 ∨ y % 400 = 0)

def dayTab : Bool → List Int
  | false => [31, 28, 31, 30, 31, 30, 31, 31, 30, 31, 30, 31, 0]
  | true => [31, 29, 31, 30, 31, 30, 31, 31, 30, 31, 30, 31, 0]

/-- The value over the integers: `date2jOperations` has the results that must fit an `int`. -/
def date2j (y m d : Int) : Int :=
  let (m, y) := if m > 2 then (m + 1, y + 4800) else (m + 13, y + 4799)
  let century := y.tdiv 100
  let julian := y * 365 - 32167
  let julian := julian + (y.tdiv 4 - century + century.tdiv 4)
  julian + ((7834 * m).tdiv 256 + d)

/-- The value an `unsigned int` keeps. -/
def uint32 (v : Int) : Int := v % 2 ^ 32

/-- The days since March 4801 BC, with the days that the Gregorian calendar leaves out. -/
def julianCount (jd : Int) : Int :=
  let julian := uint32 jd
  let julian := uint32 (julian + 32044)
  let quad := julian / 146097
  let extra := (julian - quad * 146097) * 4 + 3
  uint32 (julian + (60 + quad * 3 + extra / 146097))

/-- Year, month and day, from cycles of four years. -/
def splitCount (julian : Int) : Date :=
  let quad := julian / 1461
  let julian := julian - quad * 1461
  let y := julian * 4 / 1461
  let julian := (if y ≠ 0 then (julian + 305) % 365 else (julian + 306) % 366) + 123
  let y := y + quad * 4
  let quad := julian * 2141 / 65536
  { year := y - 4800, month := (quad + 10) % 12 + 1, day := julian - 7834 * quad / 256 }

def j2date (jd : Int) : Date := splitCount (julianCount jd)

def monthLength (y m : Int) : Int := (dayTab (isleap y)).getD (m - 1).toNat 0

structure Date.Valid (d : Date) : Prop where
  month : 1 ≤ d.month ∧ d.month ≤ 12
  day : 1 ≤ d.day ∧ d.day ≤ monthLength d.year d.month

def Date.succ (d : Date) : Date :=
  if d.day < monthLength d.year d.month then { d with day := d.day + 1 }
  else if d.month < 12 then { d with month := d.month + 1, day := 1 }
  else { year := d.year + 1, month := 1, day := 1 }

/-! ## Years that begin in March -/

/-- The number of days before a year. -/
def base (y : Int) : Int := 365 * y + y / 4 - y / 100 + y / 400

/-- The month of a day of such a year, counted from 4. -/
def monthOf (u : Int) : Int := (u + 123) * 2141 / 65536

/-- The date of a day of the year. -/
def ofMarch (y u : Int) : Date where
  year := y - 4800 + if u < 306 then 0 else 1
  month := (monthOf u + 10) % 12 + 1
  day := u + 123 - 7834 * monthOf u / 256

theorem splitCount_eq (n : Int) : ∃ y u, n = 365 * y + y / 4 + u + 60 ∧ 0 ≤ u ∧
    (u ≤ 364 ∨ u = 365 ∧ (y + 1) % 4 = 0) ∧ splitCount n = ofMarch y u := by
  obtain ⟨p, s, hn, hs, hs'⟩ : ∃ p s, n = p * 1461 + s ∧ 0 ≤ s ∧ s < 1461 :=
    ⟨n / 1461, n % 1461, by omega, by omega, by omega⟩
  have hp : n / 1461 = p := by omega
  have hr : n - p * 1461 = s := by omega
  obtain ⟨v, hv⟩ : ∃ v, s * 4 / 1461 = v := ⟨_, rfl⟩
  obtain ⟨u, hu⟩ : ∃ u, (if v ≠ 0 then (s + 305) % 365 else (s + 306) % 366) = u := ⟨_, rfl⟩
  have hCases : v = 0 ∨ v = 1 ∨ v = 2 ∨ v = 3 := by omega
  refine ⟨4 * p + v + (if u < 306 then 0 else -1), u, ?_, ?_, ?_, ?_⟩
  · rcases hCases with rfl | rfl | rfl | rfl <;> split_ifs at * <;> omega
  · split_ifs at * <;> omega
  · split_ifs at * <;> omega
  · simp only [splitCount, hp, hr, hv, hu, ofMarch, monthOf, Date.mk.injEq, and_true]
    split_ifs at * <;> omega

/-- The day number, also of dates before the first Julian day. -/
def Date.number (d : Date) : Int :=
  let y := if d.month > 2 then d.year + 4800 else d.year + 4799
  let m := if d.month > 2 then d.month + 1 else d.month + 13
  base y + 7834 * m / 256 + d.day - 32167

/-- A day of the year `y`. -/
def InYear (y u : Int) : Prop := 0 ≤ u ∧ (u ≤ 364 ∨ u = 365 ∧ isleap (y + 1))

variable {d e : Date}

theorem InYear.le {y u : Int} (h : InYear y u) : u ≤ 365 := by
  unfold InYear at h
  omega

theorem j2date_eq {jd : Int} (h : 0 ≤ jd) (h' : jd < 2 ^ 31) :
    ∃ y u, jd + 32044 = base y + u ∧ InYear y u ∧ j2date jd = ofMarch y u := by
  obtain ⟨q, r, hn, hr, hr'⟩ : ∃ q r, jd + 32044 = q * 146097 + r ∧ 0 ≤ r ∧ r < 146097 :=
    ⟨(jd + 32044) / 146097, (jd + 32044) % 146097, by omega, by omega, by omega⟩
  obtain ⟨c, hc⟩ : ∃ c, (r * 4 + 3) / 146097 = c := ⟨_, rfl⟩
  have hCount : julianCount jd = 146100 * q + r + c + 60 := by
    have hJulian : uint32 (uint32 jd + 32044) = q * 146097 + r := by unfold uint32; omega
    have hQuad : (q * 146097 + r) / 146097 = q := by omega
    have hExtra : q * 146097 + r - q * 146097 = r := by omega
    simp only [julianCount, hJulian, hQuad, hExtra]
    unfold uint32
    omega
  obtain ⟨y, u, hy, hu, hu', hSplit⟩ := splitCount_eq (julianCount jd)
  have hCases : c = 0 ∨ c = 1 ∨ c = 2 ∨ c = 3 := by omega
  have hCentury : (y - 400 * q) / 100 = c := by
    rcases hCases with rfl | rfl | rfl | rfl <;> omega
  refine ⟨y, u, ?_, ?_, hSplit⟩
  · unfold base
    omega
  · unfold InYear isleap
    simp only [decide_eq_true_eq]
    omega

theorem number_ofMarch {y u : Int} (h : 0 ≤ u) (h' : u ≤ 365) :
    (ofMarch y u).number = base y + u - 32044 := by
  obtain ⟨k, hk⟩ : ∃ k, monthOf u = k := ⟨_, rfl⟩
  have hk' : 4 ≤ k ∧ k ≤ 15 ∧ (u < 306 ↔ k < 14) := by unfold monthOf at hk; omega
  have hMonth : (k + 10) % 12 + 1 > 2 ↔ u < 306 := by omega
  simp only [Date.number, ofMarch, hk, hMonth]
  split_ifs
  · rw [show y - 4800 + 0 + 4800 = y by omega]
    omega
  · rw [show y - 4800 + 1 + 4799 = y by omega]
    omega

theorem monthLength_eq (y : Int) {m : Int} (h : 1 ≤ m) (h' : m ≤ 12) : monthLength y m =
    if m = 1 then 31 else if m = 2 then if isleap y then 29 else 28
    else 7834 * (m + 1 + 1) / 256 - 7834 * (m + 1) / 256 := by
  unfold monthLength
  interval_cases m <;> cases isleap y <;> rfl

theorem ofMarch_valid {y u : Int} (h : InYear y u) : (ofMarch y u).Valid := by
  obtain ⟨k, hk⟩ : ∃ k, monthOf u = k := ⟨_, rfl⟩
  have hk' : 4 ≤ k ∧ k ≤ 15 := by unfold monthOf InYear at *; omega
  have hMonth : 1 ≤ (k + 10) % 12 + 1 ∧ (k + 10) % 12 + 1 ≤ 12 := by omega
  refine ⟨?_, ?_⟩ <;> simp only [ofMarch, hk]
  · exact hMonth
  · rw [monthLength_eq _ hMonth.1 hMonth.2]
    unfold InYear isleap monthOf at *
    simp only [decide_eq_true_eq] at *
    obtain ⟨h1, h2⟩ := hk'
    interval_cases k <;> split_ifs <;> omega

theorem date2j_eq (hMonth : 1 ≤ d.month) (hYear : -4799 ≤ d.year) :
    date2j d.year d.month d.day = d.number := by
  unfold date2j Date.number base
  split_ifs
  all_goals
    simp (disch := omega) only [Int.tdiv_eq_ediv_of_nonneg]
    omega

theorem monthOf_eq {k n : Int} (hk : 4 ≤ k) (hk' : k ≤ 15) (hn : 7834 * k / 256 < n)
    (hn' : n ≤ 7834 * (k + 1) / 256) : monthOf (n - 123) = k := by
  unfold monthOf
  interval_cases k <;> omega

theorem Date.Valid.exists_march (h : d.Valid) : ∃ y u, InYear y u ∧ d = ofMarch y u := by
  obtain ⟨year, month, day⟩ := d
  obtain ⟨⟨h1, h2⟩, h3, h4⟩ := h
  rw [monthLength_eq _ h1 h2] at h4
  dsimp only at *
  obtain ⟨k, hk⟩ : ∃ k, k = if month > 2 then month + 1 else month + 13 := ⟨_, rfl⟩
  have hMonth : monthOf (7834 * k / 256 + day - 123) = k := by
    apply monthOf_eq <;> split_ifs at * <;> subst hk <;> omega
  refine ⟨if month > 2 then year + 4800 else year + 4799, 7834 * k / 256 + day - 123, ?_, ?_⟩
  · unfold InYear isleap at *
    simp only [decide_eq_true_eq] at *
    split_ifs at * <;> subst hk <;> omega
  · rw [ofMarch, Date.mk.injEq]
    split_ifs at * <;> subst hk <;> omega

theorem number_inj (hd : d.Valid) (he : e.Valid) (h : d.number = e.number) : d = e := by
  obtain ⟨y, u, hu, rfl⟩ := hd.exists_march
  obtain ⟨y', u', hu', rfl⟩ := he.exists_march
  rw [number_ofMarch hu.1 hu.le, number_ofMarch hu'.1 hu'.le] at h
  have hYear : y = y' := by
    unfold InYear isleap base at *
    simp only [decide_eq_true_eq] at *
    rcases Int.lt_trichotomy y y' with hLt | hEq | hGt
    · by_cases y' = y + 1 <;> omega
    · exact hEq
    · by_cases y = y' + 1 <;> omega
  rw [hYear] at h ⊢
  rw [show u = u' by omega]

theorem Date.Valid.succ (h : d.Valid) : d.succ.Valid ∧ d.succ.number = d.number + 1 := by
  obtain ⟨year, month, day⟩ := d
  obtain ⟨⟨h1, h2⟩, h3, h4⟩ := h
  unfold Date.succ
  dsimp only at *
  split_ifs with hDay hMonth
  · refine ⟨⟨⟨h1, h2⟩, ?_⟩, ?_⟩ <;> simp only [Date.number] <;> omega
  · rw [monthLength_eq _ h1 h2] at hDay h4
    refine ⟨⟨⟨?_, ?_⟩, ?_⟩, ?_⟩ <;> try dsimp only
    · omega
    · omega
    · rw [monthLength_eq _ (by omega) (by omega)]
      split_ifs <;> omega
    · simp only [Date.number, base, isleap, decide_eq_true_eq] at *
      split_ifs at * <;> omega
  · rw [monthLength_eq _ h1 h2] at hDay h4
    refine ⟨⟨⟨?_, ?_⟩, ?_⟩, ?_⟩ <;> try dsimp only
    · omega
    · omega
    · rw [monthLength_eq _ (by omega) (by omega)]
      simp
    · simp only [Date.number, base] at *
      split_ifs at * <;> omega

/-! ## The conversions -/

/-- The results of the operations of `date2j`, in the order of evaluation. -/
def date2jOperations (y m d : Int) : List Int :=
  let (m, y) := if m > 2 then (m + 1, y + 4800) else (m + 13, y + 4799)
  let century := y.tdiv 100
  let julian := y * 365 - 32167
  let leaps := y.tdiv 4 - century + century.tdiv 4
  let months := (7834 * m).tdiv 256
  [m, y, century, y * 365, julian, y.tdiv 4, y.tdiv 4 - century, century.tdiv 4, leaps,
    julian + leaps, 7834 * m, months, months + d, julian + leaps + (months + d)]

/-- Days that `date2j` finds have a year for which it is right. -/
theorem Date.Valid.year_bounds (h : d.Valid) (hNumber : 0 ≤ d.number)
    (hNumber' : d.number < 2 ^ 31) : -4713 ≤ d.year ∧ d.year ≤ 5874898 := by
  obtain ⟨⟨h1, h2⟩, h3, h4⟩ := h
  rw [monthLength_eq _ h1 h2] at h4
  simp only [Date.number, base] at *
  split_ifs at * <;> omega

theorem number_j2date {jd : Int} (h : 0 ≤ jd) (h' : jd < 2 ^ 31) :
    (j2date jd).Valid ∧ (j2date jd).number = jd := by
  obtain ⟨y, u, hDay, hYear, hDate⟩ := j2date_eq h h'
  rw [hDate, number_ofMarch hYear.1 hYear.le]
  exact ⟨ofMarch_valid hYear, by omega⟩

theorem date2j_operations (h : d.Valid) (hYear : -4713 ≤ d.year) (hNumber : d.number < 2 ^ 31) :
    ∀ v ∈ date2jOperations d.year d.month d.day, InRange32 v := by
  obtain ⟨⟨h1, h2⟩, h3, h4⟩ := h
  rw [monthLength_eq _ h1 h2] at h4
  simp only [Date.number, base] at hNumber
  intro v hv
  unfold date2jOperations at hv
  by_cases hMonth : d.month > 2
  all_goals
    simp (disch := omega) only [hMonth, if_true, if_false, Int.tdiv_eq_ediv_of_nonneg, List.mem_cons,
      List.not_mem_nil, or_false] at hv hNumber
    unfold InRange32
    split_ifs at h4 <;> omega

/-- **Julian days**: the days from 0 to 2^31 - 1 are, one after the other, the valid dates. -/
theorem julianDays (jd : Int) (h : 0 ≤ jd) (h' : jd < 2 ^ 31) :
    (j2date jd).Valid ∧ date2j (j2date jd).year (j2date jd).month (j2date jd).day = jd ∧
      (∀ d : Date, d.Valid → -4713 ≤ d.year → date2j d.year d.month d.day = jd → j2date jd = d) ∧
      (jd < 2 ^ 31 - 1 → j2date (jd + 1) = (j2date jd).succ) ∧
      ∀ v ∈ date2jOperations (j2date jd).year (j2date jd).month (j2date jd).day, InRange32 v := by
  obtain ⟨hValid, hNumber⟩ := number_j2date h h'
  obtain ⟨hYear, -⟩ := hValid.year_bounds (by omega) (by omega)
  refine ⟨hValid, ?_, ?_, ?_, ?_⟩
  · rw [date2j_eq hValid.month.1 (by omega), hNumber]
  · intro d hd hFirst hDay
    rw [date2j_eq hd.month.1 (by omega)] at hDay
    exact number_inj hValid hd (hNumber.trans hDay.symm)
  · intro hLt
    obtain ⟨hNext, hNextNumber⟩ : (j2date (jd + 1)).Valid ∧ (j2date (jd + 1)).number = jd + 1 :=
      number_j2date (by omega) (by omega)
    obtain ⟨hSucc, hSuccNumber⟩ := hValid.succ
    exact number_inj hNext hSucc (by omega)
  · exact date2j_operations hValid hYear (by omega)

theorem julianDays_epoch : j2date 2451545 = ⟨2000, 1, 1⟩ ∧ j2date (2451544 + 1) =
    (j2date 2451544).succ :=
  ⟨by decide, (julianDays 2451544 (by decide) (by decide)).2.2.2.1 (by decide)⟩

end PgTuning.Utils.Datetime
