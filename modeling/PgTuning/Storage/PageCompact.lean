import PgTuning.Storage.PageAdd

/-!
# Compaction

`PageRepairFragmentation` and `PageIndexMultiDelete` move the items they keep up to
the special space, from the highest one down. Both set the offset of the line pointer
of every item they move, so one lemma about the loop serves them.
-/

namespace PgTuning.Bufpage

open PgTuning.Lib List Memory ItemIdSortData Nat

/-! ## Loops over the line pointers -/

theorem foldl_linps {step : Block → Nat → Block} {g : ItemIdData → ItemIdData}
    (hSelf : ∀ b k, getItemId (step b k) k = g (getItemId b k))
    (hFrame : ∀ b k a, a < linpAddr k ∨ linpAddr k + 4 ≤ a → step b k a = b a) (b : Block) (n : Nat) :
    (∀ k, 1 ≤ k → k ≤ n → getItemId ((range' 1 n).foldl step b) k = g (getItemId b k)) ∧
      ∀ a, a < 24 ∨ 24 + 4 * n ≤ a → (range' 1 n).foldl step b a = b a := by
  induction n with
  | zero => exact ⟨fun k h₁ h₂ => by omega, fun a _ => rfl⟩
  | succ n ih =>
    obtain ⟨hGet, hOut⟩ := ih
    rw [range'_1_concat, foldl_concat]
    have hAddr : linpAddr (1 + n) = 24 + 4 * n := by rw [add_comm, linpAddr_succ]
    refine ⟨fun k h₁ h₂ => ?_, fun a ha => ?_⟩
    · have hAddrK : linpAddr k + 4 = 24 + 4 * k := linpAddr_add h₁
      by_cases hk : k = 1 + n
      · rw [hk, hSelf]
        congr 1
        exact getItemId_congr fun i hi => hOut _ (.inr (by omega))
      · rw [← hGet k h₁ (by omega)]
        exact getItemId_congr fun i hi => hFrame _ _ _ (.inl (by omega))
    · rw [hFrame _ _ _ (by omega), hOut a (by omega)]

theorem resetUnused_spec (b : Block) (n : Nat) :
    (∀ k, 1 ≤ k → k ≤ n → getItemId (Page.resetUnused b n) k =
      if (getItemId b k).isUsed then getItemId b k else unusedItemId) ∧
      ∀ a, a < 24 ∨ 24 + 4 * n ≤ a → Page.resetUnused b n a = b a := by
  refine foldl_linps (g := fun lp => if lp.isUsed then lp else unusedItemId) (fun b k => ?_)
    (fun b k a ha => ?_) b n
  · cases hUsed : (getItemId b k).isUsed with
    | true => simp
    | false => simp [getItemId_setItemId]
  · split
    · rfl
    · exact setItemId_outside ha

/-! ## The compaction loop -/

variable {old : Block → ItemIdSortData → ItemIdData} {orig : ItemIdSortData → ItemIdData}
  {floor : Nat} {items : List ItemIdSortData} {special : Nat}

theorem touchesBelow_setItemId (hIdx : ∀ it ∈ items, 24 + 4 * (it.offsetindex + 1) ≤ floor) :
    Memory.TouchesBelow (fun item upper block => setItemId block (item.offsetindex + 1)
      { old block item with lpOff := Fin.ofNat _ upper }) floor items := by
  intro it hIt top m a ha
  have hAddr := linpAddr_succ it.offsetindex
  have hBound := hIdx it hIt
  exact setItemId_outside (.inr (by omega))

/-- Line pointers of items that are not moved stay as they are. -/
theorem compactify_other (items : List ItemIdSortData) {n : Nat} (hn : 1 ≤ n)
    (hFloor : 24 + 4 * n ≤ floor) (hOther : ∀ it ∈ items, it.offsetindex + 1 ≠ n) :
    ∀ {top : Nat} {b : Block}, floor + totallen items ≤ top →
      getItemId (compactify old top b items).2 n = getItemId b n := by
  induction items with
  | nil =>
    intro top b _
    rfl
  | cons it items ih =>
    intro top b hTop
    have hTotal : totallen (it :: items) = it.alignedlen + totallen items := rfl
    refine (ih (fun it' h' => hOther it' (mem_cons_of_mem it h')) (by omega)).trans ?_
    rw [getItemId_setItemId_ne (by omega) hn (hOther it mem_cons_self),
      getItemId_move_above hn (by omega)]

theorem compactify_moved (items : List ItemIdSortData) {b₀ : Block}
    (hIdx : ∀ it ∈ items, 24 + 4 * (it.offsetindex + 1) ≤ floor)
    (hNodup : (items.map offsetindex).Nodup)
    (hOld : ∀ it ∈ items, ∀ b, getItemId b (it.offsetindex + 1) = getItemId b₀ (it.offsetindex + 1) →
      old b it = orig it) :
    ∀ {top : Nat} {b : Block}, floor + totallen items ≤ top →
      (∀ it ∈ items, getItemId b (it.offsetindex + 1) = getItemId b₀ (it.offsetindex + 1)) →
      ∀ x ∈ items.zip (tops alignedlen top items),
        getItemId (compactify old top b items).2 (x.1.offsetindex + 1) =
          { orig x.1 with lpOff := Fin.ofNat _ x.2 } := by
  induction items with
  | nil =>
    intro top b _ _ x hx
    cases hx
  | cons it items ih =>
    intro top b hTop hSame x hx
    have hTotal : totallen (it :: items) = it.alignedlen + totallen items := rfl
    have hIt := hIdx it mem_cons_self
    obtain ⟨hFresh, hRest⟩ := nodup_cons.mp hNodup
    have hIdxRest : ∀ it' ∈ items, 24 + 4 * (it'.offsetindex + 1) ≤ floor :=
      fun it' h' => hIdx it' (mem_cons_of_mem it h')
    have hNe : ∀ it' ∈ items, it'.offsetindex ≠ it.offsetindex := fun it' h' hEq =>
      hFresh (mem_map.mpr ⟨it', h', hEq⟩)
    -- The block after the first item is moved.
    generalize hb' : setItemId (move b (top - it.alignedlen) it.itemoff it.alignedlen)
      (it.offsetindex + 1)
      { old (move b (top - it.alignedlen) it.itemoff it.alignedlen) it with
        lpOff := Fin.ofNat _ (top - it.alignedlen) } = b'
    have hStep : compactify old top b (it :: items) = compactify old (top - it.alignedlen) b' items := by
      rw [← hb']
      rfl
    have hMoved : ∀ n, 1 ≤ n → 24 + 4 * n ≤ floor →
        getItemId (move b (top - it.alignedlen) it.itemoff it.alignedlen) n = getItemId b n :=
      fun n h₁ h₂ => getItemId_move_above h₁ (by omega)
    rw [hStep]
    rcases mem_cons.mp hx with hx | hx
    · subst hx
      rw [compactify_other items (by omega) hIt
        (fun it' h' hEq => hNe it' h' (add_right_cancel hEq)) (by omega), ← hb',
        getItemId_setItemId]
      have hLp := hOld it mem_cons_self _ ((hMoved _ (by omega) hIt).trans (hSame it mem_cons_self))
      rw [hLp]
    · refine ih hIdxRest hRest (fun it' h' => hOld it' (mem_cons_of_mem it h')) (by omega)
        (fun it' h' => ?_) x hx
      rw [← hb', getItemId_setItemId_ne (by omega) (by omega)
        (fun hEq => hNe it' h' (add_right_cancel hEq).symm), hMoved _ (by omega) (hIdxRest it' h')]
      exact hSame it' (mem_cons_of_mem it h')

/-- Items that can be compacted: they lie in the item space, aligned and apart. -/
structure Compactable (floor special : Nat) (items : List ItemIdSortData) : Prop where
  within : ∀ it ∈ items, floor ≤ it.itemoff ∧ it.itemoff + it.alignedlen ≤ special
  aligned : ∀ it ∈ items, 0 < it.alignedlen ∧ it.alignedlen % 8 = 0
  apart : items.Pairwise fun it it' => it.itemoff + it.alignedlen ≤ it'.itemoff ∨
    it'.itemoff + it'.alignedlen ≤ it.itemoff

theorem totallen_eq (items : List ItemIdSortData) :
    totallen items = total alignedlen items := rfl

theorem sortItems_perm (items : List ItemIdSortData) : (sortItems items).Perm items :=
  mergeSort_perm _ _

theorem totallen_sortItems (items : List ItemIdSortData) :
    totallen (sortItems items) = totallen items :=
  ((sortItems_perm items).map alignedlen).sum_nat

/-- Sorting puts the items in the order in which they can be moved. -/
theorem Compactable.below (h : Compactable floor special items) :
    Memory.Below itemoff alignedlen special (sortItems items) := by
  have hSorted : (sortItems items).Pairwise fun a b => decide (b.itemoff ≤ a.itemoff) := by
    refine pairwise_mergeSort (fun a b c h₁ h₂ => ?_) (fun a b => ?_) items
    · simp only [decide_eq_true_iff] at h₁ h₂ ⊢
      omega
    · simp only [Bool.or_eq_true, decide_eq_true_iff]
      omega
  have hApart := (sortItems_perm items).symm.pairwise h.apart (fun hab => hab.symm)
  refine below_of_pairwise ?_ fun it hIt => (h.within it ((sortItems_perm items).mem_iff.mp hIt)).2
  refine (hSorted.and hApart).imp_of_mem fun {a b} ha hb hab => ?_
  have hPos := (h.aligned a ((sortItems_perm items).mem_iff.mp ha)).1
  have hLe : b.itemoff ≤ a.itemoff := of_decide_eq_true hab.1
  omega

theorem Compactable.totallen_le (h : Compactable floor special items)
    (hSpecial : floor ≤ special) : floor + totallen items ≤ special := by
  have hBelow := h.below.total_le
    (fun it hIt => (h.within it ((sortItems_perm items).mem_iff.mp hIt)).1) hSpecial
  rw [← totallen_sortItems]
  exact hBelow

/-- The block after compaction. -/
structure Compacted (floor special : Nat) (b : Block) (items : List ItemIdSortData)
    (orig : ItemIdSortData → ItemIdData) (upper : Nat) (b' : Block) : Prop where
  bound : upper = special - totallen items
  /-- Every item has a place with its bytes, and its line pointer points there. -/
  moved : ∃ place : ItemIdSortData → Nat, ∀ it ∈ items,
    (getItemId b' (it.offsetindex + 1) = { orig it with lpOff := Fin.ofNat _ (place it) } ∧
      place it % 8 = 0 ∧ upper ≤ place it ∧ place it + it.alignedlen ≤ special ∧
      ∀ i < it.alignedlen, b' (place it + i) = b (it.itemoff + i)) ∧
    ∀ it' ∈ items, it.offsetindex ≠ it'.offsetindex →
      place it + it.alignedlen ≤ place it' ∨ place it' + it'.alignedlen ≤ place it
  others : ∀ n, 1 ≤ n → 24 + 4 * n ≤ floor → (∀ it ∈ items, it.offsetindex + 1 ≠ n) →
    getItemId b' n = getItemId b n

variable {b : Block} (h : Compactable floor special items) (hFloor : floor ≤ special)
  (hIdx : ∀ it ∈ items, 24 + 4 * (it.offsetindex + 1) ≤ floor) (hNodup : (items.map offsetindex).Nodup)
  (hOld : ∀ it ∈ items, ∀ b', getItemId b' (it.offsetindex + 1) = getItemId b (it.offsetindex + 1) →
    old b' it = orig it)
include h hFloor hIdx hNodup hOld

/-- Every item has a place, and its line pointer points there. -/
theorem compactify_places : ∀ it ∈ items, ∃ d,
    (it, d) ∈ (sortItems items).zip (tops alignedlen special (sortItems items)) ∧
      getItemId (compactify old special b (sortItems items)).2 (it.offsetindex + 1) =
        { orig it with lpOff := Fin.ofNat _ d } := by
  intro it hIt
  have hPerm := sortItems_perm items
  have hTotal := h.totallen_le hFloor
  rw [← totallen_sortItems] at hTotal
  generalize sortItems items = sorted at hPerm hTotal ⊢
  obtain ⟨d, hd⟩ : ∃ d, (it, d) ∈ sorted.zip (tops alignedlen special sorted) :=
    exists_mem_zip_tops (hPerm.mem_iff.mpr hIt) special
  have hMoved := compactify_moved sorted (fun it hIt => hIdx it (hPerm.mem_iff.mp hIt))
    ((hPerm.map offsetindex).nodup_iff.mpr hNodup)
    (fun it hIt => hOld it (hPerm.mem_iff.mp hIt)) hTotal (fun it _ => rfl)
  exact ⟨d, hd, hMoved (it, d) hd⟩

theorem compacted (hSpecial : special % 8 = 0) :
    Compacted floor special b items orig (compactify old special b (sortItems items)).1
      (compactify old special b (sortItems items)).2 := by
  have hPerm := sortItems_perm items
  have hTotal := h.totallen_le hFloor
  have hBelow := h.below
  have hSum := totallen_sortItems items
  have hPlaces := compactify_places h hFloor hIdx hNodup hOld
  generalize sortItems items = sorted at hPerm hBelow hSum hPlaces ⊢
  have hMem : ∀ it, it ∈ sorted ↔ it ∈ items := fun it => hPerm.mem_iff
  have hIdx' : ∀ it ∈ sorted, 24 + 4 * (it.offsetindex + 1) ≤ floor := fun it hIt =>
    hIdx it ((hMem it).mp hIt)
  have hUpper : (compactify old special b sorted).1 = special - totallen items := by
    rw [← hSum]
    exact stackSegs_top sorted special b
  refine ⟨hUpper, ?_, fun n hn hnFloor hOther => ?_⟩
  · choose! place hPlace hLp using hPlaces
    have hDvd := tops_dvd sorted
      (fun it hIt => dvd_of_mod_eq_zero (h.aligned it ((hMem it).mp hIt)).2)
      (dvd_of_mod_eq_zero hSpecial)
    have hSum' : total alignedlen sorted ≤ special := by
      rw [← totallen_eq]
      omega
    have hBounds := (tops_pairwise sorted hSum').1
    have hBytes : ∀ x ∈ sorted.zip (tops alignedlen special sorted),
        ∀ k < x.1.alignedlen, (compactify old special b sorted).2 (x.2 + k) = b (x.1.itemoff + k) :=
      stackSegs_moved sorted (touchesBelow_setItemId hIdx')
      (fun it hIt => (h.within it ((hMem it).mp hIt)).1) hBelow (le_refl special) hFloor
    refine ⟨place, fun it hIt => ?_⟩
    have hHere := hPlace it hIt
    have hAligned := mod_eq_zero_of_dvd (hDvd (it, place it) hHere)
    have hIn := hBounds (it, place it) hHere
    have hCopied := hBytes (it, place it) hHere
    rw [← totallen_eq, hSum, ← hUpper] at hIn
    refine ⟨⟨hLp it hIt, hAligned, hIn.1, hIn.2, hCopied⟩, fun it' hIt' hNe => ?_⟩
    exact tops_apart hSum' hHere (hPlace it' hIt') fun hEq => hNe (congrArg
      (fun x : ItemIdSortData × Nat => x.1.offsetindex) hEq)
  · exact compactify_other sorted hn hnFloor (fun it hIt => hOther it ((hMem it).mp hIt)) (by omega)

end PgTuning.Bufpage
