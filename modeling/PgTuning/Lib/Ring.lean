import Mathlib.Data.Nat.ModEq

/-!
# Rings

A ring of `n` slots stores the newest entries of a log that only grows: entry `i`
lives in slot `i % n`. `Holds n slot lo log` says that the ring still has every
entry from number `lo` on. Writing the next entry overwrites none of them while
there are fewer than `n`.
-/

namespace PgTuning.Lib.Ring

open List Function

variable {α : Type} {n lo : Nat} {slot : Nat → α} {log : List α}

/-- The ring has the entries of `log` from number `lo` on. -/
def Holds (n : Nat) (slot : Nat → α) (lo : Nat) (log : List α) : Prop :=
  ∀ i, lo ≤ i → ∀ h : i < log.length, slot (i % n) = log[i]

/-- Two numbers less than `n` apart have different slots. -/
theorem mod_ne_mod {a b : Nat} (hLt : a < b) (hNear : b - a < n) : a % n ≠ b % n := by
  intro hEq
  have hDvd : n ∣ b - a := (Nat.modEq_iff_dvd' (by omega)).mp hEq
  have hZero : b - a = 0 := Nat.eq_zero_of_dvd_of_lt hDvd hNear
  omega

theorem Holds.mono {lo' : Nat} (h : Holds n slot lo log) (hLe : lo ≤ lo') : Holds n slot lo' log :=
  fun i hi hLen => h i (by omega) hLen

theorem Holds.left {more : List α} (h : Holds n slot lo (log ++ more)) : Holds n slot lo log := by
  intro i hi hLen
  rw [h i hi (by simp; omega), getElem_append_left hLen]

theorem Holds.push (h : Holds n slot lo log) (hRoom : log.length < lo + n) (x : α) :
    Holds n (update slot (log.length % n) x) lo (log ++ [x]) := by
  intro i hi hLen
  simp only [length_append, length_singleton] at hLen
  by_cases hEq : i = log.length
  · subst hEq
    simp
  · have hOld : i < log.length := by omega
    have hSlot : i % n ≠ log.length % n := mod_ne_mod hOld (by omega)
    rw [update_of_ne hSlot, getElem_append_left hOld]
    exact h i hi hOld

end PgTuning.Lib.Ring
