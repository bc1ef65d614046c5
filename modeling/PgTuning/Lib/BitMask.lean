import Mathlib.Data.List.Basic

/-!
# Bit vectors as sets of small numbers

A mask of width `w` is the set of the positions of its bits. Adding a member is an
`or` with a power of two, removing one an `and` with its complement, and two masks
meet when their `and` is not zero.
-/

namespace PgTuning.Lib

open BitVec List

variable {w : Nat}

theorem getLsbD_or_twoPow (mask : BitVec w) {m : Nat} (hm : m < w) (i : Nat) :
    (mask ||| twoPow w m).getLsbD i = (mask.getLsbD i || decide (m = i)) := by
  rw [getLsbD_or, getLsbD_twoPow, decide_eq_true hm, Bool.true_and]

theorem getLsbD_and_not_twoPow (mask : BitVec w) (m i : Nat) :
    (mask &&& ~~~ twoPow w m).getLsbD i = (mask.getLsbD i && decide (m ≠ i)) := by
  by_cases hi : i < w
  · rw [getLsbD_and, getLsbD_not, getLsbD_twoPow, decide_eq_true hi]
    by_cases hEq : m = i
    · simp [hEq, hi]
    · simp [hEq]
  · rw [getLsbD_of_ge _ _ (Nat.le_of_not_lt hi),
      getLsbD_of_ge mask _ (Nat.le_of_not_lt hi), Bool.false_and]

/-- Two masks meet exactly when they have a bit in common. -/
theorem and_ne_zero_iff (a b : BitVec w) : (a &&& b) ≠ 0#w ↔ ∃ i, a.getLsbD i ∧ b.getLsbD i := by
  constructor
  · intro hNe
    by_contra hNone
    push Not at hNone
    apply hNe
    apply eq_of_getLsbD_eq
    intro i _
    rw [getLsbD_and, getLsbD_zero]
    cases hA : a.getLsbD i with
    | false => rfl
    | true => rw [Bool.eq_false_iff]; exact hNone i hA
  · rintro ⟨i, hA, hB⟩ hZero
    have hBit : (a &&& b).getLsbD i = false := by rw [hZero, getLsbD_zero]
    rw [getLsbD_and, hA, hB] at hBit
    cases hBit

/-- Collecting in a mask the members of a list that pass a test. -/
theorem getLsbD_foldl_or (f : Nat → Bool) (i : Nat) (l : List Nat) (hl : ∀ j ∈ l, j < w)
    (mask : BitVec w) :
    (l.foldl (fun mask j => if f j then mask ||| twoPow w j else mask) mask).getLsbD i
      = (mask.getLsbD i || (decide (i ∈ l) && f i)) := by
  induction l generalizing mask with
  | nil => simp
  | cons j l ih =>
    have hj : j < w := hl j mem_cons_self
    rw [foldl_cons, ih fun k hk => hl k (mem_cons_of_mem j hk)]
    by_cases hEq : j = i
    · subst hEq
      cases hf : f j with
      | false => simp
      | true => simp [hj]
    · cases hf : f j with
      | false => simp [Ne.symm hEq]
      | true => simp [hEq, Ne.symm hEq]

end PgTuning.Lib
