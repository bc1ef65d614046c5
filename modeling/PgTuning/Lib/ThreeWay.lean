import Mathlib.Order.Basic
import Mathlib.Tactic.Common

/-!
# Three-way comparisons and their lexicographic product

A comparison function in the style of C returns a number of which only the sign counts. `Lawful`
says that the signs are those of a total preorder. `lexCompare` compares two lists column by column,
each column by its own function, and stops at the first difference. Its first list may be shorter
than the columns: the columns it leaves out then do not count, which is a search by a leading part
of the key.
-/

namespace PgTuning.Lib.ThreeWay

open List

variable {α : Type}

/-- The signs of `cmp` are those of a total preorder. -/
structure Lawful (cmp : α → α → Int) : Prop where
  swap : ∀ a b, cmp a b < 0 ↔ 0 < cmp b a
  trans : ∀ {a b c}, cmp a b ≤ 0 → cmp b c ≤ 0 → cmp a c ≤ 0

namespace Lawful

variable {cmp : α → α → Int} {a b c : α}

variable (h : Lawful cmp)
include h

theorem nonneg_iff : 0 ≤ cmp a b ↔ cmp b a ≤ 0 := by
  have hSwap := h.swap a b
  omega

theorem eq_zero_iff : cmp a b = 0 ↔ cmp b a = 0 := by
  have hSwap := h.swap a b
  have hSwap' := h.swap b a
  omega

theorem self (a : α) : cmp a a = 0 := by
  have hSwap := h.swap a a
  omega

theorem nonneg_of_le (hLe : cmp b c ≤ 0) (hNot : 0 ≤ cmp a c) : 0 ≤ cmp a b :=
  h.nonneg_iff.mpr (h.trans hLe (h.nonneg_iff.mp hNot))

theorem pos_of_le (hLe : cmp b c ≤ 0) (hPos : 0 < cmp a c) : 0 < cmp a b := by
  by_contra hNot
  have hBack := h.trans (Int.not_lt.mp hNot) hLe
  omega

theorem pos_of_lt (hLt : cmp b c < 0) (hNot : 0 ≤ cmp a c) : 0 < cmp a b := by
  by_contra hLe
  have hBack := h.trans (h.nonneg_iff.mp hNot) (Int.not_lt.mp hLe)
  have hSwap := h.swap b c
  omega

theorem neg_of_lt (hLt : cmp a b < 0) (hLe : cmp b c ≤ 0) : cmp a c < 0 :=
  (h.swap a c).mpr (h.pos_of_lt hLt (h.nonneg_iff.mpr hLe))

theorem eq_zero_of_eq (hEq : cmp b c = 0) (hZero : cmp a c = 0) : cmp a b = 0 := by
  have hLower := h.nonneg_of_le (Int.le_of_eq hEq) (Int.le_of_eq hZero.symm)
  have hUpper := h.trans (Int.le_of_eq hZero) (Int.le_of_eq (h.eq_zero_iff.mp hEq))
  omega

end Lawful

/-- Compares column by column and returns the first difference; zero where the columns, or one of
the lists, end without one. -/
def lexCompare : List (α → α → Int) → List α → List α → Int
  | cmp :: cmps, a :: as, b :: bs =>
    if cmp a b ≠ 0 then cmp a b else lexCompare cmps as bs
  | _, _, _ => 0

variable {cmps : List (α → α → Int)}

variable (h : ∀ cmp ∈ cmps, Lawful cmp)
include h

theorem lexCompare_swap (as bs : List α) :
    lexCompare cmps as bs < 0 ↔ 0 < lexCompare cmps bs as := by
  induction cmps generalizing as bs with
  | nil => simp [lexCompare]
  | cons cmp cmps ih =>
    cases as with
    | nil => cases bs <;> simp [lexCompare]
    | cons a as =>
      cases bs with
      | nil => simp [lexCompare]
      | cons b bs =>
        have hFirst := h cmp mem_cons_self
        simp only [lexCompare, ne_eq, hFirst.eq_zero_iff]
        by_cases hZero : cmp a b = 0
        · simp only [hZero]
          exact ih (fun c hc => h c (mem_cons_of_mem _ hc)) as bs
        · simp only [hZero]
          exact hFirst.swap a b

theorem lexCompare_nonneg_iff {as bs : List α} :
    0 ≤ lexCompare cmps as bs ↔ lexCompare cmps bs as ≤ 0 := by
  have hSwap := lexCompare_swap h as bs
  omega

/-- Both bounds at once, because each column hands both on to the columns behind it. -/
theorem lexCompare_mono (as : List α) {bs cs : List α} (hb : bs.length = cmps.length)
    (hc : cs.length = cmps.length) (hLe : lexCompare cmps bs cs ≤ 0) :
    (0 ≤ lexCompare cmps as cs → 0 ≤ lexCompare cmps as bs) ∧
      (0 < lexCompare cmps as cs → 0 < lexCompare cmps as bs) := by
  induction cmps generalizing as bs cs with
  | nil => simp [lexCompare]
  | cons cmp cmps ih =>
    obtain _ | ⟨b, bs⟩ := bs
    · simp at hb
    obtain _ | ⟨c, cs⟩ := cs
    · simp at hc
    obtain _ | ⟨a, as⟩ := as
    · simp [lexCompare]
    have hFirst := h cmp mem_cons_self
    simp only [lexCompare, ite_not] at hLe ⊢
    by_cases hbc : cmp b c = 0
    · rw [if_pos hbc] at hLe
      have hRest := ih (fun f hf => h f (mem_cons_of_mem _ hf)) as
        (by simpa using hb) (by simpa using hc) hLe
      by_cases hac : cmp a c = 0
      · rw [if_pos hac, if_pos (hFirst.eq_zero_of_eq hbc hac)]
        exact hRest
      · -- the search differs from both in this column, on the same side
        have hab : cmp a b ≠ 0 := fun hZero =>
          hac (hFirst.eq_zero_of_eq (hFirst.eq_zero_iff.mp hbc) hZero)
        rw [if_neg hac, if_neg hab]
        exact ⟨hFirst.nonneg_of_le (Int.le_of_eq hbc), hFirst.pos_of_le (Int.le_of_eq hbc)⟩
    · rw [if_neg hbc] at hLe
      have hLt : cmp b c < 0 := by omega
      by_cases hac : cmp a c = 0
      · have hPos := hFirst.pos_of_lt hLt (Int.le_of_eq hac.symm)
        rw [if_neg (by omega : ¬cmp a b = 0)]
        exact ⟨fun _ => Int.le_of_lt hPos, fun _ => hPos⟩
      · rw [if_neg hac]
        constructor
        · intro hNonneg
          have hPos := hFirst.pos_of_lt hLt hNonneg
          rw [if_neg (by omega : ¬cmp a b = 0)]
          exact Int.le_of_lt hPos
        · intro hAfter
          have hPos := hFirst.pos_of_lt hLt (Int.le_of_lt hAfter)
          rw [if_neg (by omega : ¬cmp a b = 0)]
          exact hPos

theorem lexCompare_trans {as bs cs : List α} (ha : as.length = cmps.length)
    (hb : bs.length = cmps.length) (hab : lexCompare cmps as bs ≤ 0)
    (hbc : lexCompare cmps bs cs ≤ 0) : lexCompare cmps as cs ≤ 0 :=
  (lexCompare_nonneg_iff h).mp
    ((lexCompare_mono h _ ha hb hab).1 ((lexCompare_nonneg_iff h).mpr hbc))

/-- On lists that have all the columns the lexicographic product is lawful itself. -/
theorem lexCompare_lawful :
    Lawful fun as bs : {as : List α // as.length = cmps.length} => lexCompare cmps as.1 bs.1 where
  swap := fun as bs => lexCompare_swap h as.1 bs.1
  trans := fun {as bs _} hab hbc => lexCompare_trans h as.2 bs.2 hab hbc

end PgTuning.Lib.ThreeWay
