import Mathlib.Algebra.Order.Field.Basic
import Mathlib.Data.Finset.Order
import Mathlib.Data.Finset.Prod
import Mathlib.Data.Finset.Range
import Mathlib.Tactic.Linarith
import PgTuning.Lib.InPlace

/-!
# In-place relaxation of a min-plus vector

A work function over `n` states is updated by the min-plus product
`t i = min over j of (a j + D j i)`: entry `i` pays for moving *from* `j` *to* `i`, and all entries
are computed from the old vector `a` (`IsTransition`).

A program that overwrites one vector entry by entry relaxes entry `i` against entries already
overwritten. `sweep` is such a pass (`Lib/InPlace.lean`), written for the matrix read by rows (`D i
j` at entry `i`). This module says when the two agree: for one vector (`sweep_isTransition_iff`),
and for all vectors at once, where the condition is on the matrix alone
(`sweep_isTransition_forall_iff`). For a matrix with zero diagonal that is symmetry together with
the triangle inequality through the states handled before the later of the two
(`reversible_iff_of_diag`).
-/

namespace PgTuning.Lib.MinPlus

open PgTuning.Lib.InPlace List Function Nat

/-! ## Running minima -/

section Minimum

variable {α : Type*} [LinearOrder α]

/-- The minimum of `init` and the values `f j` for the members of a list, by
the usual loop. -/
def runMin {ι : Type*} (f : ι → α) (init : α) (js : List ι) : α :=
  js.foldl (fun m j => min m (f j)) init

theorem isLeast_runMin {ι : Type*} (f : ι → α) :
    ∀ (js : List ι) (init : α), IsLeast {x | x = init ∨ ∃ j ∈ js, x = f j} (runMin f init js) := by
  intro js
  induction js with
  | nil =>
    intro init
    refine ⟨Or.inl rfl, ?_⟩
    rintro x (hx | ⟨j, hj, -⟩)
    · exact hx.ge
    · cases hj
  | cons j js ih =>
    intro init
    have hTail := ih (min init (f j))
    show IsLeast _ (runMin f (min init (f j)) js)
    constructor
    · rcases hTail.1 with hMin | ⟨i, hi, hEq⟩
      · rw [hMin]
        rcases min_choice init (f j) with h | h
        · exact Or.inl h
        · exact Or.inr ⟨j, by simp, h⟩
      · exact Or.inr ⟨i, by simp [hi], hEq⟩
    · rintro x (hx | ⟨i, hi, hx⟩)
      · have h := hTail.2 (Or.inl rfl)
        rw [hx]
        exact h.trans (min_le_left _ _)
      · rcases mem_cons.mp hi with hij | hi
        · have h := hTail.2 (Or.inl rfl)
          rw [hx, hij]
          exact h.trans (min_le_right _ _)
        · exact hTail.2 (Or.inr ⟨i, hi, hx⟩)

end Minimum

/-! ## The transition and the sweep -/

section Sweep

variable {α : Type*} [Add α] [LinearOrder α]

/-- `t` is the vector `a` moved by one min-plus step of `D`. -/
def IsTransition (n : Nat) (D : Nat → Nat → α) (a t : Nat → α) : Prop :=
  ∀ i < n, IsLeast {x | ∃ j < n, x = a j + D j i} (t i)

/-- The transition of `a`, computed. -/
def transition (n : Nat) (D : Nat → Nat → α) (a : Nat → α) (i : Nat) : α :=
  runMin (fun j => a j + D j i) (a i + D i i) (range n)

/-- Entry `i` relaxed against the current vector `u`. -/
def relaxAt (n : Nat) (D : Nat → Nat → α) (u : Nat → α) (i : Nat) : α :=
  runMin (fun j => u j + D i j) (u i) (range n)

/-- The vector after the entries below `k` have been relaxed in place. -/
def sweep (n : Nat) (D : Nat → Nat → α) (a : Nat → α) : Nat → Nat → α :=
  pass (relaxAt n D) a

theorem isTransition_transition (n : Nat) (D : Nat → Nat → α) (a : Nat → α) :
    IsTransition n D a (transition n D a) := by
  intro i hi
  have h := isLeast_runMin (fun j => a j + D j i) (range n) (a i + D i i)
  refine ⟨?_, ?_⟩
  · rcases h.1 with hInit | ⟨j, hj, hEq⟩
    · exact ⟨i, hi, hInit⟩
    · exact ⟨j, mem_range.mp hj, hEq⟩
  · rintro x ⟨j, hj, hx⟩
    exact h.2 (Or.inr ⟨j, mem_range.mpr hj, hx⟩)

variable {D : Nat → Nat → α} {a : Nat → α} {i n : Nat}

theorem IsTransition.eq {t : Nat → α} (h : IsTransition n D a t) (hi : i < n) :
    t i = transition n D a i :=
  (h i hi).unique (isTransition_transition n D a i hi)

theorem transition_le (n : Nat) (D : Nat → Nat → α) (a : Nat → α) {j : Nat} (hi : i < n)
    (hj : j < n) : transition n D a i ≤ a j + D j i :=
  (isTransition_transition n D a i hi).2 ⟨j, hj, rfl⟩

theorem isLeast_relaxAt (n : Nat) (D : Nat → Nat → α) (u : Nat → α) (i : Nat) :
    IsLeast {x | x = u i ∨ ∃ j < n, x = u j + D i j} (relaxAt n D u i) := by
  have h := isLeast_runMin (fun j => u j + D i j) (range n) (u i)
  simp only [mem_range] at h
  exact h

theorem relaxAt_congr {u v : Nat → α} (hSelf : u i = v i) (h : ∀ j < n, u j = v j) :
    relaxAt n D u i = relaxAt n D v i := by
  have hSet : {x | x = u i ∨ ∃ j < n, x = u j + D i j} =
      {x | x = v i ∨ ∃ j < n, x = v j + D i j} := by
    ext x
    rw [hSelf]
    refine or_congr Iff.rfl (exists_congr fun j => and_congr_right fun hj => ?_)
    rw [h j hj]
  have hu := isLeast_relaxAt n D u i
  rw [hSet] at hu
  exact hu.unique (isLeast_relaxAt n D v i)

theorem IsTransition.congr {b t u : Nat → α} (hVec : ∀ j < n, a j = b j)
    (hNew : ∀ j < n, t j = u j) (h : IsTransition n D a t) : IsTransition n D b u := by
  intro i hi
  have hSet : {x | ∃ j < n, x = a j + D j i} = {x | ∃ j < n, x = b j + D j i} := by
    ext x
    refine exists_congr fun j => and_congr_right fun hj => ?_
    rw [hVec j hj]
  rw [← hSet, ← hNew i hi]
  exact h i hi

theorem sweep_congr {b : Nat → α} (h : ∀ j < n, a j = b j) :
    ∀ k ≤ n, ∀ j < n, sweep n D a k j = sweep n D b k j := by
  intro k
  induction k with
  | zero => exact fun _ => h
  | succ k ih =>
    intro hk j hj
    have hPrev := ih (by omega)
    show update (sweep n D a k) k (relaxAt n D (sweep n D a k) k) j =
      update (sweep n D b k) k (relaxAt n D (sweep n D b k) k) j
    by_cases hEq : j = k
    · rw [hEq, update_self, update_self]
      exact relaxAt_congr (hPrev k (by omega)) hPrev
    · rw [update_of_ne hEq, update_of_ne hEq]
      exact hPrev j hj

/-! ## One vector -/

/-- **One vector.**  The sweep computes the transition of `a` exactly when each
entry, relaxed against the *transition* of the earlier entries and the old
values of the others, gives its own transition. -/
theorem sweep_isTransition_iff (n : Nat) (D : Nat → Nat → α) (a : Nat → α) :
    IsTransition n D a (sweep n D a n) ↔
      ∀ i < n, relaxAt n D (mixAt (transition n D a) a i) i = transition n D a i := by
  rw [← pass_eq_iff]
  constructor
  · intro h i hi
    exact h.eq hi
  · intro h i hi
    show IsLeast _ (pass (relaxAt n D) a n i)
    rw [h i hi]
    exact isTransition_transition n D a i hi

end Sweep

/-! ## All vectors -/

variable {α : Type*} [Field α] [LinearOrder α] [IsStrictOrderedRing α]

/-- What a move from `k` to `i` may cost for the sweep to be right on every vector: the least of
nothing at all (when `k` is `i`), of the reverse move (when `k` is not handled before `i`), and of
the two moves from `k` and from `i` to a state handled before `i`. -/
def Reversible (n : Nat) (D : Nat → Nat → α) : Prop :=
  ∀ i < n, ∀ k < n,
    IsLeast {x | (k = i ∧ x = 0) ∨ (i ≤ k ∧ x = D i k) ∨
      ∃ j < i, x = D k j + D i j} (D k i)

/-- The vector that singles out state `k`: zero there and `M` elsewhere. -/
def spike (M : α) (k j : Nat) : α := if j = k then 0 else M

omit [IsStrictOrderedRing α] in
theorem exists_entry_bound (n : Nat) (D : Nat → Nat → α) :
    ∃ B : α, ∀ i < n, ∀ j < n, |D i j| ≤ B := by
  obtain ⟨B, hB⟩ := ((Finset.range n ×ˢ Finset.range n).image fun p => |D p.1 p.2|).exists_le
  refine ⟨B, fun i hi j hj => hB _ (Finset.mem_image.mpr ⟨(i, j), ?_, rfl⟩)⟩
  exact Finset.mem_product.mpr ⟨Finset.mem_range.mpr hi, Finset.mem_range.mpr hj⟩

variable {D : Nat → Nat → α} {n : Nat}

/-- Far above all entries, the transition of a spike reads off one row. -/
theorem transition_spike {B M : α} (hB : ∀ i < n, ∀ j < n, |D i j| ≤ B) (hM : 2 * B < M) {k : Nat}
    (hk : k < n) {i : Nat} (hi : i < n) : transition n D (spike M k) i = D k i := by
  have hLe : transition n D (spike M k) i ≤ D k i := by
    have h := transition_le n D (spike M k) hi hk
    simpa [spike] using h
  obtain ⟨j, hj, hEq⟩ := (isTransition_transition n D (spike M k) i hi).1
  by_cases hjk : j = k
  · rw [hEq, hjk]
    simp [spike]
  · have h1 := abs_le.mp (hB j hj i hi)
    have h2 := abs_le.mp (hB k hk i hi)
    have hSpike : spike M k j = M := by simp [spike, hjk]
    linarith [h1.1, h2.2]

/-- The sweep is right on every vector only if the matrix is reversible. -/
theorem reversible_of_forall (h : ∀ a : Nat → α, IsTransition n D a (sweep n D a n)) :
    Reversible n D := by
  intro i hi k hk
  obtain ⟨B, hB⟩ := exists_entry_bound n D
  have hM : 2 * B < 2 * B + 1 := by linarith
  -- Probe the sweep with the spike at `k`.
  have hRelax := (sweep_isTransition_iff n D (spike (2 * B + 1) k)).mp (h _) i hi
  rw [transition_spike hB hM hk hi] at hRelax
  have hLeast := isLeast_relaxAt n D
    (mixAt (transition n D (spike (2 * B + 1) k)) (spike (2 * B + 1) k) i) i
  rw [hRelax] at hLeast
  have hEarly : ∀ j < i, mixAt (transition n D (spike (2 * B + 1) k))
      (spike (2 * B + 1) k) i j = D k j := by
    intro j hj
    rw [mixAt_of_lt _ _ hj, transition_spike hB hM hk (by omega)]
  have hLate : ∀ j, i ≤ j → mixAt (transition n D (spike (2 * B + 1) k))
      (spike (2 * B + 1) k) i j = spike (2 * B + 1) k j := by
    intro j hj
    rw [mixAt_of_le _ _ hj]
  constructor
  · rcases hLeast.1 with hSelf | ⟨j, hj, hEq⟩
    · rw [hLate i le_rfl] at hSelf
      by_cases hik : i = k
      · exact Or.inl ⟨hik.symm, by rw [hSelf]; simp [spike, hik]⟩
      · have hBig := abs_le.mp (hB k hk i hi)
        have hSpike : spike (2 * B + 1) k i = 2 * B + 1 := by simp [spike, hik]
        linarith [hBig.2]
    · by_cases hji : j < i
      · rw [hEarly j hji] at hEq
        exact Or.inr (Or.inr ⟨j, hji, hEq⟩)
      · rw [hLate j (by omega)] at hEq
        by_cases hjk : j = k
        · refine Or.inr (Or.inl ⟨by omega, ?_⟩)
          rw [hEq, hjk]
          simp [spike]
        · have hBig := abs_le.mp (hB k hk i hi)
          have hBig' := abs_le.mp (hB i hi j hj)
          have hSpike : spike (2 * B + 1) k j = 2 * B + 1 := by simp [spike, hjk]
          linarith [hBig.2, hBig'.1]
  · rintro x (⟨hki, hx⟩ | ⟨hik, hx⟩ | ⟨j, hj, hx⟩)
    · have hSelf := hLeast.2 (Or.inl rfl)
      rw [hLate i le_rfl] at hSelf
      rw [hx]
      simpa [spike, hki] using hSelf
    · have hStep := hLeast.2 (Or.inr ⟨k, hk, rfl⟩)
      rw [hLate k hik] at hStep
      rw [hx]
      simpa [spike] using hStep
    · have hStep := hLeast.2 (Or.inr ⟨j, by omega, rfl⟩)
      rw [hEarly j hj] at hStep
      rw [hx]
      exact hStep

/-- On a reversible matrix the sweep is right on every vector. -/
theorem sweep_of_reversible (h : Reversible n D) (a : Nat → α) :
    IsTransition n D a (sweep n D a n) := by
  rw [sweep_isTransition_iff]
  intro i hi
  have hLeast := isLeast_relaxAt n D (mixAt (transition n D a) a i) i
  apply le_antisymm
  · -- The transition picks some `k`; each way `D k i` can arise is relaxed.
    obtain ⟨k, hk, hEq⟩ := (isTransition_transition n D a i hi).1
    rw [hEq]
    rcases (h i hi k hk).1 with ⟨hki, h0⟩ | ⟨hik, hRev⟩ | ⟨j, hj, hVia⟩
    · have hSelf := hLeast.2 (Or.inl rfl)
      rw [mixAt_of_le _ _ le_rfl] at hSelf
      rw [h0, hki, add_zero]
      exact hSelf
    · have hStep := hLeast.2 (Or.inr ⟨k, hk, rfl⟩)
      rw [mixAt_of_le _ _ hik] at hStep
      rw [hRev]
      exact hStep
    · have hStep := hLeast.2 (Or.inr ⟨j, by omega, rfl⟩)
      rw [mixAt_of_lt _ _ hj] at hStep
      have hT := transition_le n D a (show j < n by omega) hk
      linarith
  · rcases hLeast.1 with hSelf | ⟨j, hj, hEq⟩
    · rw [hSelf, mixAt_of_le _ _ le_rfl]
      have hT := transition_le n D a hi hi
      have hDiag := (h i hi i hi).2 (Or.inl ⟨rfl, rfl⟩)
      linarith
    · rcases lt_or_ge j i with hji | hij
      · rw [hEq, mixAt_of_lt _ _ hji]
        obtain ⟨k, hk, hEq'⟩ := (isTransition_transition n D a j hj).1
        have hT := transition_le n D a hi hk
        have hVia := (h i hi k hk).2 (Or.inr (Or.inr ⟨j, hji, rfl⟩))
        linarith
      · rw [hEq, mixAt_of_le _ _ hij]
        have hT := transition_le n D a hi hj
        have hRev := (h i hi j hj).2 (Or.inr (Or.inl ⟨hij, rfl⟩))
        linarith

/-- **All vectors.**  The sweep computes the transition of every vector exactly
when the matrix is reversible. -/
theorem sweep_isTransition_forall_iff (n : Nat) (D : Nat → Nat → α) :
    (∀ a : Nat → α, IsTransition n D a (sweep n D a n)) ↔ Reversible n D :=
  ⟨reversible_of_forall, sweep_of_reversible⟩

/-- With a zero diagonal, reversibility is symmetry and the triangle inequality
through the states handled before the later end point. -/
theorem reversible_iff_of_diag (hDiag : ∀ i < n, D i i = 0) :
    Reversible n D ↔
      (∀ i < n, ∀ k < n, D i k = D k i) ∧
        ∀ i < n, ∀ k < n, ∀ j < max i k, D i k ≤ D i j + D j k := by
  constructor
  · intro h
    have hLe : ∀ i < n, ∀ k < n, D k i ≤ D i k := by
      intro i hi k hk
      rcases lt_or_ge k i with hki | hik
      · have hVia := (h i hi k hk).2 (Or.inr (Or.inr ⟨k, hki, rfl⟩))
        rw [hDiag k hk, zero_add] at hVia
        exact hVia
      · exact (h i hi k hk).2 (Or.inr (Or.inl ⟨hik, rfl⟩))
    have hSymm : ∀ i < n, ∀ k < n, D i k = D k i := by
      intro i hi k hk
      exact le_antisymm (hLe k hk i hi) (hLe i hi k hk)
    refine ⟨hSymm, ?_⟩
    intro i hi k hk j hj
    rcases lt_or_ge j k with hjk | hkj
    · have hVia := (h k hk i hi).2 (Or.inr (Or.inr ⟨j, hjk, rfl⟩))
      rw [hSymm k hk j (by omega)] at hVia
      exact hVia
    · have hji : j < i := by omega
      have hVia := (h i hi k hk).2 (Or.inr (Or.inr ⟨j, hji, rfl⟩))
      rw [hSymm i hi k hk, hSymm j (by omega) k hk]
      linarith
  · rintro ⟨hSymm, hTri⟩ i hi k hk
    constructor
    · rcases lt_or_ge k i with hki | hik
      · exact Or.inr (Or.inr ⟨k, hki, by
          rw [hDiag k hk, zero_add, hSymm k hk i hi]⟩)
      · exact Or.inr (Or.inl ⟨hik, hSymm k hk i hi⟩)
    · rintro x (⟨hki, hx⟩ | ⟨-, hx⟩ | ⟨j, hj, hx⟩)
      · rw [hx, hki, hDiag i hi]
      · rw [hx, hSymm k hk i hi]
      · have hVia := hTri k hk i hi j (by omega)
        rw [hx, hSymm i hi j (by omega)]
        exact hVia

end PgTuning.Lib.MinPlus
