import Mathlib.Data.List.Basic

/-!
# Tree sets over a coarse order

A tree set identifies what its comparator calls equal, and keeps the member it got first. If the
comparator is coarser than equality the contents depend on the order of insertion:
`mem_toList_insertAll` says that they are the first of each class among everything inserted.
-/

namespace PgTuning.Lib.FirstKept

open Std List

variable {α : Type} {cmp : α → α → Ordering}

def insertAll (t : TreeSet α cmp) (xs : List α) : TreeSet α cmp :=
  xs.foldl (fun t x => t.insert x) t

/-- The first member of a list that compares equal to `a`. -/
def firstOf (cmp : α → α → Ordering) (xs : List α) (a : α) : Option α :=
  xs.find? fun x => cmp x a == .eq

/-- A member of the list is the first of its class, or shadowed by the first. -/
theorem exists_firstOf (cmp : α → α → Ordering) [TransCmp cmp] {xs : List α} {a : α} (ha : a ∈ xs) :
    ∃ r ∈ xs, firstOf cmp xs a = some r ∧ cmp r a = .eq := by
  cases hFirst : firstOf cmp xs a with
  | none =>
    have h := find?_eq_none.mp hFirst a ha
    exact absurd ReflCmp.compare_self (by simpa using h)
  | some r =>
    refine ⟨r, mem_of_find?_eq_some hFirst, rfl, ?_⟩
    simpa using find?_some hFirst

variable [TransCmp cmp]

/-- The stored member of a class survives every later insertion. -/
theorem get?_insertAll (xs : List α) :
    ∀ (t : TreeSet α cmp) (a : α), (insertAll t xs).get? a = (t.get? a).or (firstOf cmp xs a) := by
  induction xs with
  | nil =>
    intro t a
    show t.get? a = _
    simp [firstOf]
  | cons x xs ih =>
    intro t a
    show (insertAll (t.insert x) xs).get? a = _
    rw [ih, TreeSet.get?_insert]
    unfold firstOf
    by_cases hx : cmp x a = .eq
    · have hMem : x ∈ t ↔ (t.get? a).isSome := by
        rw [← TreeSet.get?_congr hx]
        exact TreeSet.mem_iff_isSome_get?
      cases hGet : t.get? a with
      | none =>
        have hNot : ¬ x ∈ t := by
          rw [hMem, hGet]
          simp
        simp [hx, hNot]
      | some r =>
        have hIn : x ∈ t := by
          rw [hMem, hGet]
          rfl
        simp [hIn]
    · have hFalse : (cmp x a == .eq) = false := by simpa using hx
      simp [hx, hFalse]

/-- The members of a tree set are the elements stored for themselves. -/
theorem mem_toList_iff_get? (t : TreeSet α cmp) (a : α) : a ∈ t.toList ↔ t.get? a = some a := by
  have hKeys : t.inner.keys = t.inner.toList.map Prod.fst := TreeMap.map_fst_toList_eq_keys.symm
  show a ∈ t.inner.keys ↔ t.inner.getKey? a = some a
  rw [hKeys, mem_map]
  constructor
  · rintro ⟨⟨b, v⟩, hMem, rfl⟩
    exact (TreeMap.mem_toList_iff_getKey?_eq_some_and_getElem?_eq_some.mp hMem).1
  · intro h
    have hIn : a ∈ t.inner := TreeMap.mem_of_getKey?_eq_some h
    exact ⟨(a, ()), TreeMap.mem_toList_iff_getKey?_eq_some_and_getElem?_eq_some.mpr
      ⟨h, TreeMap.getElem?_eq_some_getElem hIn⟩, rfl⟩

/-- **What a tree set holds**: the first of each class inserted. -/
theorem mem_toList_insertAll (xs : List α) (a : α) :
    a ∈ (insertAll (∅ : TreeSet α cmp) xs).toList ↔
      firstOf cmp xs a = some a := by
  rw [mem_toList_iff_get?, get?_insertAll]
  rfl

theorem mem_insertAll (xs : List α) (a : α) :
    a ∈ insertAll (∅ : TreeSet α cmp) xs ↔ ∃ x ∈ xs, cmp x a = .eq := by
  rw [TreeSet.mem_iff_isSome_get?, get?_insertAll]
  unfold firstOf
  simp [find?_isSome]

end PgTuning.Lib.FirstKept
