import PgTuning.Storage.PageRuns

/-!
# Free space of a heap page

`PageGetHeapFreeSpace` promises room for an item and `PageAddItem` decides on its own whether
there is any.
-/

namespace PgTuning.Bufpage

open PgTuning.Lib List Nat

namespace Page

def pageGetFreeSpace (p : Page) : Nat :=
  let space := (p.pdUpper : Int) - p.pdLower
  if space < sizeOfItemIdData then 0 else (space - sizeOfItemIdData).toNat

def pageGetHeapFreeSpace (p : Page) : Nat :=
  let space := p.pageGetFreeSpace
  let nline := p.pageGetMaxOffsetNumber
  if space > 0 ∧ nline ≥ maxHeapTuplesPerPage then
    if p.hasFreeLines then
      if (range' 1 nline).any fun offnum => !(p.itemId offnum).isUsed then space else 0
    else 0
  else space

end Page

/-- A heap page: line pointers that are not in use have no storage, the hint is set when there is
one, and there are no more line pointers than a heap page may have. -/
structure HeapPage (p : Page) : Prop where
  wellFormed : WellFormed p
  unused : ∀ k, 1 ≤ k → k ≤ p.pageGetMaxOffsetNumber → (p.itemId k).isUsed = false →
    (p.itemId k).hasStorage = false ∧ p.hasFreeLines = true
  bound : p.pageGetMaxOffsetNumber ≤ maxHeapTuplesPerPage

variable {p : Page}

theorem pageGetFreeSpace_spec (hPos : 0 < p.pageGetFreeSpace) :
    p.pdLower + 4 + p.pageGetFreeSpace = p.pdUpper := by
  unfold Page.pageGetFreeSpace sizeOfItemIdData at *
  dsimp only at *
  split_ifs at * with hSmall
  · cases hPos
  · omega

theorem pageGetHeapFreeSpace_le (p : Page) : p.pageGetHeapFreeSpace ≤ p.pageGetFreeSpace := by
  unfold Page.pageGetHeapFreeSpace
  dsimp only
  split_ifs <;> omega

/-- Where space is reported a line pointer is free, or one more is allowed. -/
theorem slot_of_heapFreeSpace (hPos : 0 < p.pageGetHeapFreeSpace) :
    (∃ k, 1 ≤ k ∧ k ≤ p.pageGetMaxOffsetNumber ∧ (p.itemId k).isUsed = false) ∨
      p.pageGetMaxOffsetNumber < maxHeapTuplesPerPage := by
  by_cases hFull : p.pageGetMaxOffsetNumber < maxHeapTuplesPerPage
  · exact .inr hFull
  · have hSpace := lt_of_lt_of_le hPos (pageGetHeapFreeSpace_le p)
    unfold Page.pageGetHeapFreeSpace at hPos
    rw [if_pos ⟨hSpace, not_lt.mp hFull⟩] at hPos
    split_ifs at hPos with hHint hAny
    · obtain ⟨k, hk, hFree⟩ := any_eq_true.mp hAny
      rw [mem_range'_1] at hk
      exact .inl ⟨k, hk.1, by omega, by simpa using hFree⟩
    · cases hPos
    · cases hPos

theorem freeSlot_le {n k : Nat} (hk : 1 ≤ k) (hkn : k ≤ n) (hUsed : (p.itemId k).isUsed = false)
    (hStorage : (p.itemId k).hasStorage = false) : p.freeSlot (n + 1) ≤ n := by
  unfold Page.freeSlot
  rw [Nat.add_sub_cancel]
  cases hFind : (range' 1 n).find? fun m => !(p.itemId m).isUsed && !(p.itemId m).hasStorage with
  | none =>
    have hAll := find?_eq_none.mp hFind k (mem_range'_1.mpr (by omega))
    simp [hUsed, hStorage] at hAll
  | some m =>
    have hMem := mem_range'_1.mp (mem_of_find?_eq_some hFind)
    show m ≤ n
    omega

/-- The line pointer that is selected is one that a heap page may have. -/
theorem HeapPage.select (h : HeapPage p) (hPos : 0 < p.pageGetHeapFreeSpace) (overwrite : Bool) :
    ∃ hint r, p.selectOffset (p.pageGetMaxOffsetNumber + 1) invalidOffsetNumber overwrite =
        some ({ p with hasFreeLines := hint }, r, false) ∧
      1 ≤ r ∧ r ≤ p.pageGetMaxOffsetNumber + 1 ∧ r ≤ maxHeapTuplesPerPage := by
  have hSlot := slot_of_heapFreeSpace hPos
  have hBound := h.bound
  unfold Page.selectOffset
  rw [if_neg (by simp)]
  by_cases hHint : p.hasFreeLines
  · rw [if_pos hHint]
    have hFree := freeSlot_spec p p.pageGetMaxOffsetNumber
    have hLe : p.freeSlot (p.pageGetMaxOffsetNumber + 1) ≤ maxHeapTuplesPerPage := by
      rcases hSlot with ⟨k, hk, hkn, hUsed⟩ | hMore
      · exact le_trans (freeSlot_le hk hkn hUsed (h.unused k hk hkn hUsed).1) hBound
      · omega
    dsimp only
    split_ifs with hNone
    · exact ⟨false, _, rfl, by omega, by omega, hLe⟩
    · exact ⟨p.hasFreeLines, _, rfl, by omega, by omega, hLe⟩
  · rw [if_neg hHint]
    refine ⟨p.hasFreeLines, _, rfl, by omega, le_refl _, ?_⟩
    rcases hSlot with ⟨k, hk, hkn, hUsed⟩ | hMore
    · exact absurd (h.unused k hk hkn hUsed).2 hHint
    · omega

section Fits

variable (h : HeapPage p) (item : List UInt8) (overwrite : Bool)
  (hPos : 0 < maxalign item.length) (hRoom : maxalign item.length ≤ p.pageGetHeapFreeSpace)
include h hPos hRoom

theorem HeapPage.room : maxalign item.length ≤ 8192 := by
  have hLe := pageGetHeapFreeSpace_le p
  have hSpace := pageGetFreeSpace_spec (p := p) (by omega)
  have hUpper := h.wellFormed.upper
  have hSpecial : p.pdSpecial ≤ 8192 := h.wellFormed.special
  omega

/-- None of the tests of `PageAddItem` refuses the item. -/
theorem HeapPage.accepts :
    ∃ p' r, p.pageAddItem item invalidOffsetNumber overwrite true = some (p', r) ∧
      r ≠ invalidOffsetNumber ∧ p'.pageGetMaxOffsetNumber ≤ maxHeapTuplesPerPage := by
  have hLe := pageGetHeapFreeSpace_le p
  have hSpace := pageGetFreeSpace_spec (p := p) (by omega)
  have hLower := h.wellFormed.lower_eq
  have hBound := h.bound
  have hSmall := h.room item hPos hRoom
  obtain ⟨hint, r, hSelect, hr, hrn, hHeap⟩ := h.select (by omega) overwrite
  have hAligned := toInt_eq (n := maxalign item.length) (by omega)
  unfold Page.pageAddItem
  rw [if_neg h.wellFormed.not_corrupted]
  dsimp only
  rw [hSelect]
  dsimp only
  unfold Page.placeItem
  rw [if_neg (by omega), if_neg (fun hLarge => by omega)]
  simp only [Bool.false_eq_true, or_false]
  -- One line pointer more at most, for which the reported space leaves room.
  by_cases hLast : r = p.pageGetMaxOffsetNumber + 1
  · simp only [if_pos hLast]
    unfold sizeOfItemIdData
    rw [if_neg (by omega)]
    refine ⟨_, r, rfl, one_le_iff_ne_zero.mp hr, ?_⟩
    rw [maxOffset_of_lower (n := r) (by simp only; omega)]
    exact hHeap
  · simp only [if_neg hLast]
    rw [if_neg (by omega)]
    refine ⟨_, r, rfl, one_le_iff_ne_zero.mp hr, ?_⟩
    exact hBound

/-- **Reported free space is real**: an item for which `PageGetHeapFreeSpace` reports room is
stored, in a line pointer of its own or in an unused one, and the page has no more line pointers
than a heap page may have. -/
theorem pageAddItem_of_heapFreeSpace :
    ∃ p' r, p.pageAddItem item invalidOffsetNumber overwrite true = some (p', r) ∧
      r ≠ invalidOffsetNumber ∧ WellFormed p' ∧
      Added p.lines item invalidOffsetNumber overwrite r p'.lines ∧
      p'.pageGetMaxOffsetNumber ≤ maxHeapTuplesPerPage := by
  have hItem : item ≠ [] := by
    rintro rfl
    cases hPos
  have hSmall := h.room item hPos hRoom
  have hLe := (le_maxalign item.length).1
  obtain ⟨p', r, hCall, hr, hCount⟩ := h.accepts item overwrite hPos hRoom
  obtain ⟨p₁, r₁, hCall₁, hwf, hCase⟩ := pageAddItem_spec h.wellFormed hItem (by omega)
    invalidOffsetNumber overwrite true
  rw [hCall] at hCall₁
  cases hCall₁
  rcases hCase with ⟨hr₁, -⟩ | ⟨-, hAdded⟩
  · exact absurd hr₁ hr
  · exact ⟨p', r, hCall, hr, hwf, hAdded, hCount⟩

end Fits

/-- A heap page of two line pointers: the first is free again, the second has three bytes. -/
def vacuumedPage : Page :=
  ⟨true, 32, 8184, 8192, setItemId (fun _ => 0) 2 ⟨8184, .normal, 3⟩⟩

theorem heapPage_vacuumedPage : HeapPage vacuumedPage := by
  have hTwo : ∀ n, 1 ≤ n → n ≤ vacuumedPage.pageGetMaxOffsetNumber → n = 1 ∨ n = 2 := by
    intro n h₁ h₂
    have h₂ : n ≤ 2 := h₂
    omega
  have hFree : (vacuumedPage.itemId 1).hasStorage = false := by decide
  refine ⟨⟨⟨by decide, by decide, by decide, by decide, by decide, fun n h₁ h₂ hn => ?_,
    fun n m h₁ h₂ h₃ h₄ hne hn hm => ?_⟩, by decide, by decide⟩, fun n h₁ h₂ hn => ?_, by decide⟩
  · rcases hTwo n h₁ h₂ with rfl | rfl
    · rw [hFree] at hn
      cases hn
    · decide
  · rcases hTwo n h₁ h₂ with rfl | rfl
    · rw [hFree] at hn
      cases hn
    · rcases hTwo m h₃ h₄ with rfl | rfl
      · rw [hFree] at hm
        cases hm
      · exact absurd rfl hne
  · rcases hTwo n h₁ h₂ with rfl | rfl
    · decide
    · exact absurd hn (by decide)

/-- The item takes the line pointer that is free. -/
theorem pageAddItem_of_heapFreeSpace_vacuumed :
    vacuumedPage.hasFreeLines = true ∧
      (vacuumedPage.pageAddItem [7] invalidOffsetNumber false true).map Prod.snd = some 1 ∧
      ∃ p' r, vacuumedPage.pageAddItem [7] invalidOffsetNumber false true = some (p', r) ∧
        r ≠ invalidOffsetNumber ∧ WellFormed p' ∧
        Added vacuumedPage.lines [7] invalidOffsetNumber false r p'.lines ∧
        p'.pageGetMaxOffsetNumber ≤ maxHeapTuplesPerPage :=
  ⟨rfl, by decide, pageAddItem_of_heapFreeSpace heapPage_vacuumedPage [7] false (by decide)
    (by decide)⟩

end PgTuning.Bufpage
