import Mathlib.Tactic.Linarith

/-!
# Bigint arithmetic

The operators of `int8.c` compute in wrapping 64-bit arithmetic and infer an overflow from
the wrapped result: from its sign for sums and differences, and by dividing a product back.
Operands of type int4 and int2 are widened first; products with them skip the check when the
bigint fits in 32 bits.
-/

namespace PgTuning.Utils.Int8

open Int Nat

inductive Int8Error
  /-- bigint out of range -/
  | outOfRange
  /-- division by zero -/
  | divisionByZero
  deriving DecidableEq

/-! ## The operators -/

def sameSign (a b : Int64) : Bool := decide (a < 0) == decide (b < 0)

variable (arg1 arg2 : Int64)

def int8pl : Except Int8Error Int64 :=
  let result := arg1 + arg2
  if sameSign arg1 arg2 && !sameSign result arg1 then .error .outOfRange else .ok result

def int8mi : Except Int8Error Int64 :=
  let result := arg1 - arg2
  if !sameSign arg1 arg2 && !sameSign result arg1 then .error .outOfRange else .ok result

def int8mul : Except Int8Error Int64 :=
  let result := arg1 * arg2
  if (arg1 ≠ arg1.toInt32.toInt64 ∨ arg2 ≠ arg2.toInt32.toInt64) ∧ arg2 ≠ 0 ∧
      (result / arg2 ≠ arg1 ∨ arg2 = -1 ∧ arg1 < 0 ∧ result < 0) then .error .outOfRange
  else .ok result

def int8div : Except Int8Error Int64 :=
  if arg2 = 0 then .error .divisionByZero
  else
    let result := arg1 / arg2
    if arg2 = -1 ∧ arg1 < 0 ∧ result ≤ 0 then .error .outOfRange else .ok result

/-- A product with an operand of a narrower type. -/
def mulNarrow (wide narrow : Int64) : Except Int8Error Int64 :=
  let result := wide * narrow
  if wide ≠ wide.toInt32.toInt64 ∧ result / wide ≠ narrow then .error .outOfRange
  else .ok result

/-- A quotient of an operand of a narrower type: no overflow is possible. -/
def divNarrow (narrow wide : Int64) : Except Int8Error Int64 :=
  if wide = 0 then .error .divisionByZero else .ok (narrow / wide)

variable (arg1 : Int64)

def int84pl (arg2 : Int32) := int8pl arg1 arg2.toInt64
def int84mi (arg2 : Int32) := int8mi arg1 arg2.toInt64
def int84mul (arg2 : Int32) := mulNarrow arg1 arg2.toInt64
def int84div (arg2 : Int32) := int8div arg1 arg2.toInt64
def int48pl (arg1 : Int32) (arg2 : Int64) := int8pl arg1.toInt64 arg2
def int48mi (arg1 : Int32) (arg2 : Int64) := int8mi arg1.toInt64 arg2
def int48mul (arg1 : Int32) (arg2 : Int64) := mulNarrow arg2 arg1.toInt64
def int48div (arg1 : Int32) (arg2 : Int64) := divNarrow arg1.toInt64 arg2
def int82pl (arg2 : Int16) := int8pl arg1 arg2.toInt64
def int82mi (arg2 : Int16) := int8mi arg1 arg2.toInt64
def int82mul (arg2 : Int16) := mulNarrow arg1 arg2.toInt64
def int82div (arg2 : Int16) := int8div arg1 arg2.toInt64
def int28pl (arg1 : Int16) (arg2 : Int64) := int8pl arg1.toInt64 arg2
def int28mi (arg1 : Int16) (arg2 : Int64) := int8mi arg1.toInt64 arg2
def int28mul (arg1 : Int16) (arg2 : Int64) := mulNarrow arg2 arg1.toInt64
def int28div (arg1 : Int16) (arg2 : Int64) := divNarrow arg1.toInt64 arg2

inductive Op
  | pl
  | mi
  | mul
  | div
  deriving DecidableEq

/-- The operands of the bigint family. -/
inductive Operands
  | int8 (arg1 arg2 : Int64)
  | int84 (arg1 : Int64) (arg2 : Int32)
  | int48 (arg1 : Int32) (arg2 : Int64)
  | int82 (arg1 : Int64) (arg2 : Int16)
  | int28 (arg1 : Int16) (arg2 : Int64)

def call : Op → Operands → Except Int8Error Int64
  | .pl, .int8 a b => int8pl a b
  | .pl, .int84 a b => int84pl a b
  | .pl, .int48 a b => int48pl a b
  | .pl, .int82 a b => int82pl a b
  | .pl, .int28 a b => int28pl a b
  | .mi, .int8 a b => int8mi a b
  | .mi, .int84 a b => int84mi a b
  | .mi, .int48 a b => int48mi a b
  | .mi, .int82 a b => int82mi a b
  | .mi, .int28 a b => int28mi a b
  | .mul, .int8 a b => int8mul a b
  | .mul, .int84 a b => int84mul a b
  | .mul, .int48 a b => int48mul a b
  | .mul, .int82 a b => int82mul a b
  | .mul, .int28 a b => int28mul a b
  | .div, .int8 a b => int8div a b
  | .div, .int84 a b => int84div a b
  | .div, .int48 a b => int48div a b
  | .div, .int82 a b => int82div a b
  | .div, .int28 a b => int28div a b

/-! ## What the operators should do -/

/-- The operands, widened. -/
def Operands.args : Operands → Int64 × Int64
  | .int8 a b => (a, b)
  | .int84 a b => (a, b.toInt64)
  | .int48 a b => (a.toInt64, b)
  | .int82 a b => (a, b.toInt64)
  | .int28 a b => (a.toInt64, b)

def Operands.values (x : Operands) : Int × Int := (x.args.1.toInt, x.args.2.toInt)

/-- The true result; a quotient is truncated towards zero. -/
def Op.exact : Op → Int × Int → Int
  | .pl, x => x.1 + x.2
  | .mi, x => x.1 - x.2
  | .mul, x => x.1 * x.2
  | .div, x => x.1.tdiv x.2

def InRange (v : Int) : Prop := -2 ^ 63 ≤ v ∧ v < 2 ^ 63

instance (v : Int) : Decidable (InRange v) := inferInstanceAs (Decidable (_ ∧ _))

def InRange32 (v : Int) : Prop := -2 ^ 31 ≤ v ∧ v < 2 ^ 31

instance (v : Int) : Decidable (InRange32 v) := inferInstanceAs (Decidable (_ ∧ _))

variable (v : Int)

/-- What an `int32` keeps of a value. -/
def int32 : Int := v.bmod (2 ^ 32)

/-- What an `int64` keeps of a value. -/
def int64 : Int := v.bmod (2 ^ 64)

theorem inRange32_int32 : InRange32 (int32 v) :=
  ⟨le_bmod (by decide), bmod_lt (by decide)⟩

theorem int32_eq_self {v : Int} (h : InRange32 v) : int32 v = v := bmod_eq_of_le h.1 h.2

theorem int32_wraps : ∃ k, int32 v = v + k * 2 ^ 32 := by
  have hDiv := bdiv_add_bmod v (2 ^ 32)
  exact ⟨-v.bdiv (2 ^ 32), by unfold int32; omega⟩

theorem inRange_int64 : InRange (int64 v) :=
  ⟨le_bmod (by decide), bmod_lt (by decide)⟩

theorem int64_wraps : ∃ k, int64 v = v + k * 2 ^ 64 := by
  have hDiv := bdiv_add_bmod v (2 ^ 64)
  exact ⟨-v.bdiv (2 ^ 64), by unfold int64; omega⟩

/-- The value, or the error when it is out of range. -/
def trapped : Except Int8Error Int64 :=
  if InRange v then .ok (Int64.ofInt v) else .error .outOfRange

/-! ## The checks -/

variable {a b w : Int64} {v : Int}

theorem inRange_toInt (a : Int64) : InRange a.toInt := ⟨a.le_toInt, a.toInt_lt⟩

theorem bmod_eq_self (h : InRange v) : v.bmod (2 ^ 64) = v :=
  bmod_eq_of_le h.1 h.2

/-- A wrapped value is off by a multiple of `2 ^ 64`. -/
theorem exists_wraps (hw : w.toInt = v.bmod (2 ^ 64)) : ∃ k, w.toInt = v + k * 2 ^ 64 := by
  have hDiv := bdiv_add_bmod v (2 ^ 64)
  exact ⟨-v.bdiv (2 ^ 64), by omega⟩

theorem trapped_eq {c : Prop} [Decidable c] (hw : w.toInt = v.bmod (2 ^ 64))
    (hc : c ↔ ¬ InRange v) : (if c then .error .outOfRange else .ok w) = trapped v := by
  unfold trapped
  by_cases hIn : InRange v
  · rw [if_neg fun h => hc.mp h hIn, if_pos hIn,
      Int64.toInt_inj.mp (hw.trans Int64.toInt_ofInt.symm)]
  · rw [if_pos (hc.mpr hIn), if_neg hIn]

theorem sameSign_iff : sameSign a b ↔ (a.toInt < 0 ↔ b.toInt < 0) := by
  simp only [sameSign, beq_iff_eq, decide_eq_decide, Int64.lt_iff_toInt_lt, Int64.toInt_zero]

theorem int8pl_eq (a b : Int64) : int8pl a b = trapped (a.toInt + b.toInt) := by
  apply trapped_eq (Int64.toInt_add a b)
  obtain ⟨k, hk⟩ := exists_wraps (Int64.toInt_add a b)
  have ha := inRange_toInt a
  have hb := inRange_toInt b
  have hr := inRange_toInt (a + b)
  rw [Bool.and_eq_true, Bool.not_eq_true', ← Bool.not_eq_true, sameSign_iff, sameSign_iff]
  unfold InRange at *
  omega

theorem int8mi_eq (a b : Int64) : int8mi a b = trapped (a.toInt - b.toInt) := by
  apply trapped_eq (Int64.toInt_sub a b)
  obtain ⟨k, hk⟩ := exists_wraps (Int64.toInt_sub a b)
  have ha := inRange_toInt a
  have hb := inRange_toInt b
  have hr := inRange_toInt (a - b)
  rw [Bool.and_eq_true, Bool.not_eq_true', Bool.not_eq_true', ← Bool.not_eq_true,
    ← Bool.not_eq_true, sameSign_iff, sameSign_iff]
  unfold InRange at *
  omega

theorem inRange_tdiv {x y : Int} (hx : InRange x) (hy : y ≠ 0) :
    InRange (x.tdiv y) ↔ ¬ (x = -2 ^ 63 ∧ y = -1) := by
  unfold InRange at *
  by_cases hNeg : y = -1
  · rw [hNeg, Int.tdiv_neg, Int.tdiv_one]
    omega
  by_cases hOne : y = 1
  · rw [hOne, Int.tdiv_one]
    omega
  have hAbs : (x.tdiv y).natAbs = x.natAbs / y.natAbs := natAbs_tdiv x y
  have hHalf : x.natAbs / y.natAbs ≤ x.natAbs / 2 := div_le_div_left (by omega) (by omega)
  omega

theorem toInt_div_of_ne (hb : b ≠ 0) (hMin : ¬ (a.toInt = -2 ^ 63 ∧ b.toInt = -1)) :
    (a / b).toInt = a.toInt.tdiv b.toInt := by
  rw [Int64.toInt_div]
  apply bmod_eq_self
  exact (inRange_tdiv (inRange_toInt a) fun h => hb (Int64.toInt_inj.mp h)).mpr hMin

/-- **Dividing back finds every overflow of a product**: a quotient that gives the factor
again leaves a difference smaller than `2 ^ 64`. -/
theorem mul_div_eq_iff (hb : b ≠ 0) (hMin : ¬ ((a * b).toInt = -2 ^ 63 ∧ b.toInt = -1)) :
    a * b / b = a ↔ InRange (a.toInt * b.toInt) := by
  have hNe : b.toInt ≠ 0 := fun h => hb (Int64.toInt_inj.mp h)
  rw [← Int64.toInt_inj, toInt_div_of_ne hb hMin]
  constructor
  · intro hBack
    obtain ⟨k, hk⟩ := exists_wraps (Int64.toInt_mul a b)
    have hSplit := mul_tdiv_add_tmod (a * b).toInt b.toInt
    have hAbs := natAbs_tmod (a * b).toInt b.toInt
    have hRest : (a * b).toInt.natAbs % b.toInt.natAbs < b.toInt.natAbs := mod_lt _ (by omega)
    have hb := inRange_toInt b
    have hr := inRange_toInt (a * b)
    rw [hBack, mul_comm] at hSplit
    unfold InRange at *
    omega
  · intro hIn
    rw [Int64.toInt_mul, bmod_eq_self hIn, mul_tdiv_cancel _ hNe]

theorem natAbs_le_of_narrow (h : a = a.toInt32.toInt64) : a.toInt.natAbs ≤ 2 ^ 31 := by
  have hLow := a.toInt32.le_toInt
  have hHigh := a.toInt32.toInt_lt
  rw [h, Int32.toInt_toInt64]
  omega

theorem inRange_mul {x y : Int} (hx : x.natAbs ≤ 2 ^ 31) (hy : y.natAbs ≤ 2 ^ 31) :
    InRange (x * y) := by
  have hMul := mul_le_mul hx hy
  rw [← natAbs_mul] at hMul
  unfold InRange
  omega

theorem int8mul_eq (a b : Int64) : int8mul a b = trapped (a.toInt * b.toInt) := by
  apply trapped_eq (Int64.toInt_mul a b)
  by_cases hNarrow : a = a.toInt32.toInt64 ∧ b = b.toInt32.toInt64
  · have hIn := inRange_mul (natAbs_le_of_narrow hNarrow.1) (natAbs_le_of_narrow hNarrow.2)
    refine iff_of_false ?_ (not_not.mpr hIn)
    exact fun hCheck => not_and_or.mpr hCheck.1 hNarrow
  rw [and_iff_right (not_and_or.mp hNarrow)]
  by_cases hb : b = 0
  · simp [hb, InRange]
  rw [and_iff_right hb]
  obtain ⟨k, hk⟩ := exists_wraps (Int64.toInt_mul a b)
  have ha := inRange_toInt a
  have hr := inRange_toInt (a * b)
  simp only [Int64.lt_iff_toInt_lt, ← Int64.toInt_inj, Int64.toInt_zero,
    show (-1 : Int64).toInt = -1 from rfl]
  by_cases hMin : (a * b).toInt = -2 ^ 63 ∧ b.toInt = -1
  · -- the division itself overflows
    rw [hMin.2]
    rw [hMin.2] at hk
    unfold InRange at *
    omega
  · have hBack := mul_div_eq_iff hb hMin
    constructor
    · rintro (hNe | ⟨hNeg, hLt, hProd⟩)
      · exact fun hIn => hNe (hBack.mpr hIn)
      · rw [hNeg] at hk hMin
        unfold InRange at *
        omega
    · exact fun hOut => .inl fun hEq => hOut (hBack.mp hEq)

theorem mulNarrow_eq (a : Int64) (hb : b = b.toInt32.toInt64) :
    mulNarrow a b = trapped (a.toInt * b.toInt) := by
  apply trapped_eq (Int64.toInt_mul a b)
  by_cases hNarrow : a = a.toInt32.toInt64
  · have hIn := inRange_mul (natAbs_le_of_narrow hNarrow) (natAbs_le_of_narrow hb)
    exact iff_of_false (fun hCheck => hCheck.1 hNarrow) (not_not.mpr hIn)
  · rw [and_iff_right hNarrow, Int64.mul_comm, mul_comm, not_iff_not]
    apply mul_div_eq_iff
    · exact fun h => hNarrow (by rw [h]; rfl)
    · exact fun h => hNarrow (by rw [show a = -1 from Int64.toInt_inj.mp h.2]; rfl)

theorem int8div_eq (a : Int64) (hb : b ≠ 0) : int8div a b = trapped (a.toInt.tdiv b.toInt) := by
  rw [int8div, if_neg hb]
  apply trapped_eq (Int64.toInt_div a b)
  have ha := inRange_toInt a
  have hr := inRange_toInt (a / b)
  obtain ⟨k, hk⟩ := exists_wraps (Int64.toInt_div a b)
  rw [inRange_tdiv ha fun h => hb (Int64.toInt_inj.mp h)]
  simp only [Int64.lt_iff_toInt_lt, Int64.le_iff_toInt_le, ← Int64.toInt_inj,
    Int64.toInt_zero, show (-1 : Int64).toInt = -1 from rfl]
  by_cases hNeg : b.toInt = -1
  · rw [hNeg, Int.tdiv_neg, Int.tdiv_one] at hk
    unfold InRange at *
    omega
  · omega

theorem divNarrow_eq (ha : a = a.toInt32.toInt64) (hb : b ≠ 0) :
    divNarrow a b = trapped (a.toInt.tdiv b.toInt) := by
  have hSmall := natAbs_le_of_narrow ha
  have hIn : InRange (a.toInt.tdiv b.toInt) := by
    rw [inRange_tdiv (inRange_toInt a) fun h => hb (Int64.toInt_inj.mp h)]
    omega
  rw [divNarrow, if_neg hb,
    ← trapped_eq (Int64.toInt_div a b) (iff_of_false id (not_not.mpr hIn)), if_false]

/-! ## The family -/

/-- **Bigint arithmetic traps every overflow and nothing else**: each operator of the family
returns the true result when that is a bigint and reports it out of range otherwise; only a
division by zero is reported as such. -/
theorem call_eq (op : Op) (x : Operands) :
    call op x = if op = .div ∧ x.values.2 = 0 then .error .divisionByZero
      else trapped (op.exact x.values) := by
  cases op with
  | pl =>
    exact Eq.trans (by cases x <;> rfl) (int8pl_eq x.args.1 x.args.2)
  | mi =>
    exact Eq.trans (by cases x <;> rfl) (int8mi_eq x.args.1 x.args.2)
  | mul =>
    cases x with
    | int8 a b => exact int8mul_eq a b
    | int84 a b => exact mulNarrow_eq a (by simp)
    | int48 a b => exact (mulNarrow_eq b (by simp)).trans (congrArg _ (mul_comm _ _))
    | int82 a b => exact mulNarrow_eq a (by simp)
    | int28 a b => exact (mulNarrow_eq b (by simp)).trans (congrArg _ (mul_comm _ _))
  | div =>
    by_cases hb : x.args.2 = 0
    · rw [if_pos ⟨rfl, congrArg Int64.toInt hb⟩]
      cases x <;> exact if_pos hb
    · rw [if_neg fun h => hb (Int64.toInt_inj.mp h.2)]
      cases x with
      | int8 a b => exact int8div_eq a hb
      | int84 a b => exact int8div_eq a hb
      | int48 a b => exact divNarrow_eq (by simp) hb
      | int82 a b => exact int8div_eq a hb
      | int28 a b => exact divNarrow_eq (by simp) hb

end PgTuning.Utils.Int8
