import Mathlib.Tactic.Common

/-!
# Overwriting a vector in place

Entry `i` of a vector is recomputed by a rule that looks at the whole vector and is stored at once,
so the rule sees new entries below `i` and old ones from `i` on. `pass` is that loop for an
arbitrary rule. `pass_eq_iff` compares it with any intended vector `t`: the loop produces `t`
exactly when the rule produces `t i` from the mixed vector that is `t` below `i` and old from `i`
on.
-/

namespace PgTuning.Lib.InPlace

open Function

variable {β : Type*}

/-- The vector after the entries below `k` have been overwritten in order. -/
def pass (f : (Nat → β) → Nat → β) (a : Nat → β) : Nat → Nat → β
  | 0 => a
  | k + 1 => update (pass f a k) k (f (pass f a k) k)

/-- The vector that is `t` below `i` and `a` from `i` on. -/
def mixAt (t a : Nat → β) (i j : Nat) : β := if j < i then t j else a j

theorem mixAt_of_lt (t a : Nat → β) {i j : Nat} (h : j < i) :
    mixAt t a i j = t j := if_pos h

theorem mixAt_of_le (t a : Nat → β) {i j : Nat} (h : i ≤ j) :
    mixAt t a i j = a j := if_neg (by omega)

variable (f : (Nat → β) → Nat → β) (a : Nat → β)

theorem pass_of_le : ∀ (k : Nat) {j : Nat}, k ≤ j → pass f a k j = a j := by
  intro k
  induction k with
  | zero => intro j _; rfl
  | succ k ih =>
    intro j hj
    have hNe : j ≠ k := by omega
    show update (pass f a k) k _ j = a j
    rw [update_of_ne hNe]
    exact ih (by omega)

theorem pass_of_lt : ∀ (k : Nat) {j : Nat}, j < k → pass f a k j = f (pass f a j) j := by
  intro k
  induction k with
  | zero => intro j hj; omega
  | succ k ih =>
    intro j hj
    show update (pass f a k) k _ j = _
    by_cases hEq : j = k
    · rw [hEq, update_self]
    · rw [update_of_ne hEq]
      exact ih (by omega)

theorem pass_congr {f g : (Nat → β) → Nat → β} :
    ∀ k : Nat, (∀ u, ∀ i < k, f u i = g u i) → pass f a k = pass g a k := by
  intro k
  induction k with
  | zero => intro _; rfl
  | succ k ih =>
    intro h
    have hPrev := ih fun u i hi => h u i (by omega)
    show update (pass f a k) k (f (pass f a k) k) =
      update (pass g a k) k (g (pass g a k) k)
    rw [hPrev, h _ k (by omega)]

/-- While entry `i` is computed, the vector is final below `i` and old from `i`
on. -/
theorem pass_eq_mixAt (a t : Nat → β) {n i : Nat} (hi : i ≤ n)
    (hFinal : ∀ j < i, pass f a n j = t j) : pass f a i = mixAt t a i := by
  funext j
  rcases Nat.lt_or_ge j i with hj | hj
  · rw [mixAt_of_lt t a hj, ← hFinal j hj, pass_of_lt f a i hj, pass_of_lt f a n (by omega)]
  · rw [mixAt_of_le t a hj]
    exact pass_of_le f a i hj

/-- **The loop against its intention.** -/
theorem pass_eq_iff (a t : Nat → β) (n : Nat) :
    (∀ i < n, pass f a n i = t i) ↔ ∀ i < n, f (mixAt t a i) i = t i := by
  constructor
  · intro h i hi
    rw [← h i hi, pass_of_lt f a n hi, pass_eq_mixAt f a t (by omega) fun j hj => h j (by omega)]
  · intro h i
    -- Strong induction: the entries below `i` already hold `t`.
    induction i using Nat.strongRecOn with
    | ind i ih =>
      intro hi
      rw [← h i hi, pass_of_lt f a n hi,
        pass_eq_mixAt f a t (by omega) fun j hj => ih j hj (by omega)]

end PgTuning.Lib.InPlace
