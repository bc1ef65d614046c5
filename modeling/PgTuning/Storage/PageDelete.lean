import Mathlib.Data.List.GetD
import PgTuning.Storage.PageRepair

/-!
# Deleting index tuples

`PageIndexTupleDelete` closes the gap that one item leaves; `PageIndexMultiDelete`
does the same item by item when there are few, and otherwise compacts the page with the
items that stay.
-/

namespace PgTuning.Bufpage

open PgTuning.Lib List Memory Nat

/-! ## Lists without some elements -/

section RemoveFrom

variable {α : Type} {nos : List Nat}

/-- A list without the elements at some positions, counted from `s`. -/
def removeFrom (s : Nat) (l : List α) (nos : List Nat) : List α :=
  ((l.zipIdx s).filter fun x => decide (x.2 ∉ nos)).map Prod.fst

theorem removeFrom_cons (s : Nat) (x : α) (xs : List α) (nos : List Nat) :
    removeFrom s (x :: xs) nos =
      if s ∈ nos then removeFrom (s + 1) xs nos else x :: removeFrom (s + 1) xs nos := by
  unfold removeFrom
  by_cases hs : s ∈ nos <;> simp [hs]

theorem removeFrom_nil (l : List α) (s : Nat) : removeFrom s l [] = l := by
  simp [removeFrom]

theorem removeFrom_of_lt {k s : Nat} (l : List α) (hs : k < s) :
    removeFrom s l (k :: nos) = removeFrom s l nos := by
  unfold removeFrom
  congr 1
  refine filter_congr fun x hx => ?_
  have hPos := (mem_zipIdx hx).1
  simp [show x.2 ≠ k by omega]

/-- The lowest position can be removed last. -/
theorem removeFrom_cons_nos {k : Nat} (hnos : ∀ k' ∈ nos, k < k') (l : List α) :
    ∀ {s : Nat}, s ≤ k → removeFrom s l (k :: nos) = (removeFrom s l nos).eraseIdx (k - s) := by
  induction l with
  | nil => exact fun _ => rfl
  | cons x xs ih =>
    intro s hs
    have hNot : s ∉ nos := fun hMem => by
      have hLt := hnos s hMem
      omega
    rw [removeFrom_cons, removeFrom_cons, if_neg hNot]
    by_cases hEq : s = k
    · rw [if_pos (by rw [hEq]; exact mem_cons_self), hEq, Nat.sub_self, eraseIdx_cons_zero,
        removeFrom_of_lt xs (by omega)]
    · have hMem : s ∉ k :: nos := fun h => (mem_cons.mp h).elim hEq hNot
      rw [if_neg hMem, ih (by omega), show k - s = k - (s + 1) + 1 by omega, eraseIdx_cons_succ]

theorem removeFrom_range (f : Nat → α) (nos : List Nat) (n s : Nat) :
    removeFrom s ((range' s n).map f) nos =
      ((range' s n).filter fun k => decide (k ∉ nos)).map f := by
  have hZip : ((range' s n).map f).zipIdx s = (range' s n).map fun k => (f k, k) :=
    ext_getElem (by simp) (by simp)
  rw [removeFrom, hZip, filter_map, map_map]
  rfl

end RemoveFrom

theorem lines_eq_range (p : Page) :
    p.lines = (range' 1 p.pageGetMaxOffsetNumber).map fun k => lineOf p.block (p.itemId k) := by
  rw [range'_eq_map_range, map_map]
  refine map_congr_left fun i _ => ?_
  simp only [Function.comp_apply, add_comm 1 i]

/-! ## Deleting one tuple -/

/-- All line pointers have storage, as on index pages. -/
def AllStored (p : Page) : Prop :=
  ∀ k, 1 ≤ k → k ≤ p.pageGetMaxOffsetNumber → (p.itemId k).hasStorage = true

section Delete

variable {p : Page} {off : Nat}

/-- The line pointer after the loop that adjusts the offsets. -/
def adjusted (offset size : Nat) (lp : ItemIdData) : ItemIdData :=
  if lp.lpOff.val ≤ offset then { lp with lpOff := Fin.ofNat _ (lp.lpOff + size) } else lp

theorem adjustLinps_spec (b : Block) (n offset size : Nat) :
    (∀ k, 1 ≤ k → k ≤ n →
      getItemId (Page.adjustLinps b n offset size) k = adjusted offset size (getItemId b k)) ∧
      ∀ a, a < 24 ∨ 24 + 4 * n ≤ a → Page.adjustLinps b n offset size a = b a := by
  refine foldl_linps (fun b k => ?_) (fun b k a ha => ?_) b n
  · unfold adjusted
    by_cases hLe : (getItemId b k).lpOff.val ≤ offset
    · simp only [if_pos hLe, getItemId_setItemId]
    · simp only [if_neg hLe]
  · split_ifs
    · exact setItemId_outside ha
    · rfl

/-- The offset number a line pointer had before. -/
def beforeDelete (off k : Nat) : Nat := if k < off then k else k + 1

theorem getItemId_closeUp {b : Block} {n off k : Nat} (hoff : 1 ≤ off) (hoff' : off ≤ n) (hk : 1 ≤ k)
    (hk' : k ≤ n - 1) :
    getItemId (if 24 + 4 * n - linpAddr (off + 1) > 0 then
      move b (linpAddr off) (linpAddr (off + 1)) (24 + 4 * n - linpAddr (off + 1)) else b) k =
      getItemId b (beforeDelete off k) := by
  have hAddr : linpAddr off + 4 = 24 + 4 * off := linpAddr_add hoff
  have hAddrK : linpAddr k + 4 = 24 + 4 * k := linpAddr_add hk
  have hNext := linpAddr_succ off
  unfold beforeDelete
  by_cases hLt : k < off
  · rw [if_pos hLt]
    split
    · exact getItemId_congr fun i hi => move_outside (.inl (by omega))
    · rfl
  · rw [if_neg hLt, if_pos (by omega)]
    have hAfter := linpAddr_succ k
    refine getItemId_congr fun i hi => ?_
    have hCell : linpAddr k + i = linpAddr off + (4 * (k - off) + i) := by omega
    have hFrom : linpAddr (k + 1) + i = linpAddr (off + 1) + (4 * (k - off) + i) := by omega
    rw [hCell, hFrom, move_inside (by omega)]

/-- The item space after the part before the deleted item is moved up. -/
theorem closeGap {b : Block} {upper offset size a : Nat} (hUpper : upper ≤ offset) :
    (if offset > upper then move b (upper + size) upper (offset - upper) else b) a =
      if upper + size ≤ a ∧ a < offset + size then b (a - size) else b a := by
  split_ifs with hGt hIn
  · rw [show a = upper + size + (a - (upper + size)) by omega, move_inside (by omega)]
    congr 1
    omega
  · exact move_outside (by omega)
  · omega
  · rfl

/-- What `PageIndexTupleDelete` leaves of the block. -/
structure Deleted (p p' : Page) (off : Nat) : Prop where
  lower : p'.pdLower = 24 + 4 * (p.pageGetMaxOffsetNumber - 1)
  upper : p'.pdUpper = p.pdUpper + (p.itemId off).lpLen
  special : p'.pdSpecial = p.pdSpecial
  linps : ∀ k, 1 ≤ k → k ≤ p.pageGetMaxOffsetNumber - 1 →
    p'.itemId k = adjusted (p.itemId off).lpOff (p.itemId off).lpLen (p.itemId (beforeDelete off k))
  items : ∀ a, p.pdUpper + (p.itemId off).lpLen ≤ a →
    p'.block a = if a < (p.itemId off).lpOff.val + (p.itemId off).lpLen.val
      then p.block (a - (p.itemId off).lpLen) else p.block a

variable (h : WellFormed p) (hoff : 1 ≤ off) (hoff' : off ≤ p.pageGetMaxOffsetNumber)
  (hAll : AllStored p) (hLen : (p.itemId off).lpLen.val % 8 = 0)
include h hoff hoff' hAll hLen

theorem pageIndexTupleDelete_eq :
    ∃ p', p.pageIndexTupleDelete off = some p' ∧ Deleted p p' off := by
  obtain ⟨hAligned, hUpper, hSpecial⟩ := h.stored off hoff hoff' (hAll off hoff hoff')
  have hLower := h.lower_eq
  have hBound := h.lower
  unfold Page.pageIndexTupleDelete
  rw [if_neg h.not_corrupted]
  dsimp only
  rw [if_neg (by omega), if_neg]
  · generalize hn : p.pageGetMaxOffsetNumber = n at *
    generalize hoffset : (p.itemId off).lpOff.val = offset at *
    generalize hsize : (p.itemId off).lpLen.val = size at *
    rw [hLower]
    generalize hb₁ : (if 24 + 4 * n - linpAddr (off + 1) > 0 then
      move p.block (linpAddr off) (linpAddr (off + 1)) (24 + 4 * n - linpAddr (off + 1))
      else p.block) = b₁
    generalize hb₂ : (if offset > p.pdUpper then
      move b₁ (p.pdUpper + size) p.pdUpper (offset - p.pdUpper) else b₁) = b₂
    have hb₁Above : ∀ a, p.pdLower ≤ a → b₁ a = p.block a := by
      intro a ha
      have hAddr : linpAddr off + 4 = 24 + 4 * off := linpAddr_add hoff
      have hNext := linpAddr_succ off
      rw [← hb₁]
      split_ifs
      · exact move_outside (by omega)
      · rfl
    have hb₂Linps : ∀ k, 1 ≤ k → k ≤ n - 1 → getItemId b₂ k = p.itemId (beforeDelete off k) := by
      intro k hk hk'
      have hClose := getItemId_closeUp (b := p.block) hoff hoff' hk hk'
      rw [hb₁] at hClose
      refine Eq.trans ?_ hClose
      rw [← hb₂]
      split_ifs
      · exact getItemId_move_above hk (by omega)
      · rfl
    have hb₂Above : ∀ a, p.pdUpper + size ≤ a →
        b₂ a = if a < offset + size then p.block (a - size) else p.block a := by
      intro a ha
      rw [← hb₂, closeGap hUpper]
      by_cases hIn : a < offset + size
      · rw [if_pos ⟨ha, hIn⟩, if_pos hIn, hb₁Above _ (by omega)]
      · rw [if_neg (fun hBoth => hIn hBoth.2), if_neg hIn, hb₁Above _ (by omega)]
    have hAdjust := adjustLinps_spec b₂ (n - 1) offset size
    refine ⟨_, rfl, ?_, by rw [hsize], rfl, fun k hk hk' => ?_, fun a ha => ?_⟩
    · show 24 + 4 * n - 4 = _
      omega
    · rw [hn] at hk'
      rw [hoffset, hsize, ← hb₂Linps k hk hk', ← hAdjust.1 k hk hk']
      show getItemId (if 24 + 4 * n - 4 ≤ 24 then _ else _) k = _
      rw [if_neg (by omega)]
    · rw [hsize] at ha
      rw [hoffset, hsize, ← hb₂Above a ha]
      split_ifs
      · rfl
      · exact hAdjust.2 a (.inr (by omega))
  · have hMod := maxalign_eq_self.mpr hAligned
    have hMod' := maxalign_eq_self.mpr hLen
    omega

/-- An item that was not deleted lies before or behind the deleted one. -/
theorem Deleted.movedItem {p' : Page} (hd : Deleted p p' off) {k : Nat} (hk : 1 ≤ k)
    (hk' : k ≤ p.pageGetMaxOffsetNumber - 1) :
    MovedItem p.block p'.block p'.pdUpper p'.pdSpecial (p.itemId (beforeDelete off k)) (p'.itemId k) ∧
      (((p.itemId (beforeDelete off k)).lpOff.val + (p.itemId (beforeDelete off k)).lpLen.val ≤
          (p.itemId off).lpOff.val ∧
        (p'.itemId k).lpOff.val = (p.itemId (beforeDelete off k)).lpOff.val + (p.itemId off).lpLen.val) ∨
      ((p.itemId off).lpOff.val + (p.itemId off).lpLen.val ≤
          (p.itemId (beforeDelete off k)).lpOff.val ∧
        (p'.itemId k).lpOff.val = (p.itemId (beforeDelete off k)).lpOff.val)) := by
  have hOld : 1 ≤ beforeDelete off k ∧ beforeDelete off k ≤ p.pageGetMaxOffsetNumber ∧
      beforeDelete off k ≠ off := by
    unfold beforeDelete
    split <;> omega
  have hLp := hd.linps k hk hk'
  have hUpper := hd.upper
  have hSpecial := hd.special
  have hItems := hd.items
  have hMax := h.special
  generalize beforeDelete off k = j at hOld hLp ⊢
  have hStorage := hAll j hOld.1 hOld.2.1
  have hj := h.stored j hOld.1 hOld.2.1 hStorage
  have hOff := h.stored off hoff hoff' (hAll off hoff hoff')
  have hApart := h.apart j off hOld.1 hOld.2.1 hoff hoff' hOld.2.2 hStorage (hAll off hoff hoff')
  have hPosOff : (p.itemId off).lpLen.val ≠ 0 := by
    simpa [ItemIdData.hasStorage] using hAll off hoff hoff'
  have hBare : (p.itemId j).hasStorage = false → (p'.itemId k).lpOff = (p.itemId j).lpOff :=
    fun hNot => absurd (hNot.symm.trans hStorage) (by decide)
  unfold Apart at hApart
  unfold blcksz at hMax
  unfold adjusted at hLp
  by_cases hBefore : (p.itemId j).lpOff.val ≤ (p.itemId off).lpOff.val
  · -- Before the deleted item: it was moved up by the gap.
    rw [if_pos hBefore] at hLp
    have hPlace : (p'.itemId k).lpOff.val = (p.itemId j).lpOff.val + (p.itemId off).lpLen.val := by
      rw [hLp]
      exact mod_eq_of_lt (by omega)
    refine ⟨⟨by rw [hLp], by rw [hLp], hBare, fun _ => by omega, fun _ i hi => ?_⟩,
      .inl ⟨by omega, hPlace⟩⟩
    rw [hItems _ (by omega), if_pos (by omega)]
    congr 1
    omega
  · rw [if_neg hBefore] at hLp
    refine ⟨⟨by rw [hLp], by rw [hLp], hBare, fun _ => ?_, fun _ i hi => ?_⟩, .inr ⟨by omega, by rw [hLp]⟩⟩
    · rw [hLp]
      omega
    · rw [hLp, hItems _ (by omega), if_neg (by omega)]

theorem Deleted.moved {p' : Page} (hd : Deleted p p' off) : Moved p p' (beforeDelete off) := by
  have hn := maxOffset_of_lower hd.lower
  have hItem := fun k (hk : 1 ≤ k) (hk' : k ≤ p.pageGetMaxOffsetNumber - 1) =>
    hd.movedItem h hoff hoff' hAll hLen hk hk'
  have hOff := h.stored off hoff hoff' (hAll off hoff hoff')
  have hLower := h.lower_eq
  have hBound := h.lower
  have hAligned := h.upperAligned
  have h₁ := hd.lower
  have h₂ := hd.upper
  have h₃ := hd.special
  refine ⟨by rw [hn, h₁], by omega, by omega, h₃, by omega, fun k hk hk' => ?_,
    fun k m hk hk' hm hm' hne hks hms => ?_⟩
  · rw [hn] at hk'
    exact .inr (hItem k hk hk').1
  · rw [hn] at hk' hm'
    obtain ⟨hMoved, hPlace⟩ := hItem k hk hk'
    obtain ⟨hMoved', hPlace'⟩ := hItem m hm hm'
    have hInj : beforeDelete off k ≠ beforeDelete off m := by
      unfold beforeDelete
      split <;> split <;> omega
    have hRange : ∀ j, 1 ≤ j → j ≤ p.pageGetMaxOffsetNumber - 1 →
        1 ≤ beforeDelete off j ∧ beforeDelete off j ≤ p.pageGetMaxOffsetNumber := by
      intro j hj hj'
      unfold beforeDelete
      split <;> omega
    rw [hMoved.hasStorage] at hks
    rw [hMoved'.hasStorage] at hms
    have hApart := h.apart _ _ (hRange k hk hk').1 (hRange k hk hk').2 (hRange m hm hm').1
      (hRange m hm hm').2 hInj hks hms
    unfold Apart at hApart ⊢
    rw [hMoved.len, hMoved'.len]
    omega

theorem pageIndexTupleDelete_spec :
    ∃ p', p.pageIndexTupleDelete off = some p' ∧ WellFormed p' ∧
      p'.pageGetMaxOffsetNumber = p.pageGetMaxOffsetNumber - 1 ∧
      (∀ k, 1 ≤ k → k ≤ p.pageGetMaxOffsetNumber - 1 →
        (p'.itemId k).lpLen = (p.itemId (beforeDelete off k)).lpLen) ∧
      p'.lines = p.lines.eraseIdx (off - 1) := by
  obtain ⟨p', hEq, hd⟩ := pageIndexTupleDelete_eq h hoff hoff' hAll hLen
  have hm := hd.moved h hoff hoff' hAll hLen
  have hn := maxOffset_of_lower hd.lower
  refine ⟨p', hEq, hm.wellFormed h, hn,
    fun k hk hk' => (hd.movedItem h hoff hoff' hAll hLen hk hk').1.len, ext_getElem? fun i => ?_⟩
  rw [getElem?_eraseIdx, getElem?_lines, getElem?_lines, getElem?_lines, hn]
  by_cases hi : i < p.pageGetMaxOffsetNumber - 1
  · rw [if_pos hi, hm.line (by omega) (by omega)]
    unfold beforeDelete
    by_cases hLt : i < off - 1
    · rw [if_pos (by omega), if_pos hLt, if_pos (by omega)]
    · rw [if_neg (by omega), if_neg hLt, if_pos (by omega)]
  · rw [if_neg hi]
    by_cases hLt : i < off - 1
    · omega
    · rw [if_neg hLt, if_neg (by omega)]

end Delete

/-! ## Deleting several tuples -/

variable {p : Page}

/-- The items that stay, in the order of their new offset numbers. -/
def keptItems (p : Page) : List Nat → Nat → List ItemIdSortData
  | [], _ => []
  | k :: ks, nused =>
    ⟨nused, (p.itemId k).lpOff, p.itemId k, maxalign (p.itemId k).lpLen⟩ ::
      keptItems p ks (nused + 1)

/-- The scan keeps what is not named, and meets all names. -/
theorem keepItems_eq (h : WellFormed p) (hAll : AllStored p) (offs : List Nat) :
    ∀ {nos : List Nat} {nused : Nat}, offs.Pairwise (· < ·) → nos.Pairwise (· < ·) →
      (∀ k ∈ nos, k ∈ offs) → (∀ k ∈ offs, 1 ≤ k ∧ k ≤ p.pageGetMaxOffsetNumber) →
      p.keepItems offs nos nused =
        some (keptItems p (offs.filter fun k => decide (k ∉ nos)) nused, []) := by
  induction offs with
  | nil =>
    intro nos nused _ _ hSub _
    have hNone : nos = [] := eq_nil_iff_forall_not_mem.mpr fun k hk =>
      absurd (hSub k hk) not_mem_nil
    rw [hNone]
    rfl
  | cons o offs ih =>
    intro nos nused hOffs hNos hSub hRange
    obtain ⟨hFirst, hRest⟩ := pairwise_cons.mp hOffs
    have hRangeRest : ∀ k ∈ offs, 1 ≤ k ∧ k ≤ p.pageGetMaxOffsetNumber :=
      fun k hk => hRange k (mem_cons_of_mem o hk)
    obtain ⟨ho, ho'⟩ := hRange o mem_cons_self
    obtain ⟨hAligned, hUpper, hSpecial⟩ := h.stored o ho ho' (hAll o ho ho')
    have hMod := maxalign_eq_self.mpr hAligned
    unfold Page.keepItems
    rw [if_neg (by omega)]
    by_cases hHead : nos.head? = some o
    · -- The next name is met.
      obtain ⟨rest, hCons⟩ := head?_eq_some_iff.mp hHead
      subst hCons
      obtain ⟨hBelow, hNosRest⟩ := pairwise_cons.mp hNos
      have hSubRest : ∀ k ∈ rest, k ∈ offs := by
        intro k hk
        have hLt := hBelow k hk
        rcases mem_cons.mp (hSub k (mem_cons_of_mem o hk)) with hEq | hMem
        · omega
        · exact hMem
      have hSame : (o :: offs).filter (fun k => decide (k ∉ o :: rest)) =
          offs.filter fun k => decide (k ∉ rest) := by
        rw [filter_cons, if_neg (by simp)]
        refine filter_congr fun k hk => ?_
        have hLt := hFirst k hk
        rw [decide_eq_decide, mem_cons, not_or]
        exact ⟨fun hBoth => hBoth.2, fun hNot => ⟨by omega, hNot⟩⟩
      rw [if_pos hHead, tail_cons, ih hRest hNosRest hSubRest hRangeRest, hSame]
    · -- All names are still to come.
      have hNot : o ∉ nos := by
        intro hMem
        cases nos with
        | nil => cases hMem
        | cons k rest =>
          rcases mem_cons.mp hMem with hEq | hLater
          · exact hHead (by rw [hEq]; rfl)
          · have hLt := rel_of_pairwise_cons hNos hLater
            rcases mem_cons.mp (hSub k mem_cons_self) with hEq | hIn
            · omega
            · have hLt' := hFirst k hIn
              omega
      have hSubRest : ∀ k ∈ nos, k ∈ offs := by
        intro k hk
        rcases mem_cons.mp (hSub k hk) with hEq | hMem
        · exact absurd (by rw [← hEq]; exact hk) hNot
        · exact hMem
      rw [if_neg hHead, ih hRest hNos hSubRest hRangeRest, filter_cons, if_pos (by simpa using hNot)]
      rfl

theorem keptItems_eq (ks : List Nat) : ∀ nused, keptItems p ks nused = (ks.zipIdx nused).map fun x =>
    ⟨x.2, (p.itemId x.1).lpOff, p.itemId x.1, maxalign (p.itemId x.1).lpLen⟩ := by
  induction ks with
  | nil => exact fun _ => rfl
  | cons k ks ih =>
    intro nused
    rw [keptItems, ih, zipIdx_cons, map_cons]

theorem mem_keptItems (ks : List Nat) {nused : Nat} {it : ItemIdSortData} :
    it ∈ keptItems p ks nused ↔ ∃ j, ∃ hj : j < ks.length,
      it = ⟨nused + j, (p.itemId ks[j]).lpOff, p.itemId ks[j], maxalign (p.itemId ks[j]).lpLen⟩ := by
  rw [keptItems_eq, mem_iff_getElem]
  simp [eq_comm]

theorem keptItems_order (ks : List Nat) (nused : Nat) :
    (keptItems p ks nused).Pairwise fun it it' => it.offsetindex < it'.offsetindex := by
  rw [keptItems_eq, pairwise_iff_getElem]
  intro i j hi hj hij
  simpa using hij

theorem length_keptItems (ks : List Nat) (nused : Nat) :
    (keptItems p ks nused).length = ks.length := by
  rw [keptItems_eq]
  simp

/-- Offset numbers of a page, in order. -/
structure Kept (p : Page) (ks : List Nat) : Prop where
  sorted : ks.Pairwise (· < ·)
  range : ∀ k ∈ ks, 1 ≤ k ∧ k ≤ p.pageGetMaxOffsetNumber
  short : ks.length ≤ p.pageGetMaxOffsetNumber

variable {ks : List Nat} {itemnos : List Nat}

theorem Kept.ne (hk : Kept p ks) {i j : Nat} (hi : i < ks.length) (hj : j < ks.length)
    (hne : i ≠ j) : ks[i] ≠ ks[j] := by
  rcases lt_or_gt_of_ne hne with hLt | hLt
  · exact Nat.ne_of_lt (pairwise_iff_getElem.mp hk.sorted i j hi hj hLt)
  · exact ne_of_gt (pairwise_iff_getElem.mp hk.sorted j i hj hi hLt)

theorem Kept.collected (hAll : AllStored p) (hk : Kept p ks) :
    Collected p (fun k => ks.getD (k - 1) 0) (keptItems p ks 0) where
  item it hIt := by
    obtain ⟨j, hj, rfl⟩ := (mem_keptItems ks).mp hIt
    obtain ⟨hLo, hHi⟩ := hk.range ks[j] (getElem_mem hj)
    have hShort := hk.short
    simp only [Nat.zero_add, Nat.add_sub_cancel, getD_eq_getElem _ _ hj]
    exact ⟨by omega, hLo, hHi, hAll _ hLo hHi, trivial, trivial⟩
  order := keptItems_order ks 0
  distinct it hIt it' hIt' hNe := by
    obtain ⟨i, hi, rfl⟩ := (mem_keptItems ks).mp hIt
    obtain ⟨j, hj, rfl⟩ := (mem_keptItems ks).mp hIt'
    simp only [Nat.zero_add, Nat.add_sub_cancel, getD_eq_getElem _ _ hi,
      getD_eq_getElem _ _ hj] at hNe ⊢
    exact hk.ne hi hj hNe

theorem Kept.moved {p' : Page} (h : WellFormed p) (hAll : AllStored p)
    (hk : Kept p ks) (hLower : p'.pdLower = 24 + 4 * ks.length) (hSpecial : p'.pdSpecial = p.pdSpecial)
    (hc : Compacted p.pdUpper p.pdSpecial p.block (keptItems p ks 0) ItemIdSortData.olditemid
      p'.pdUpper p'.block) : Moved p p' fun k => ks.getD (k - 1) 0 := by
  refine (hk.collected hAll).moved h hLower hk.short hSpecial hc (fun _ _ => rfl)
    (fun it hIt => ?_) fun k hk₁ hk₂ hNone => ?_
  · obtain ⟨j, hj, rfl⟩ := (mem_keptItems ks).mp hIt
    simp only [Nat.zero_add, Nat.add_sub_cancel, getD_eq_getElem _ _ hj]
  · refine absurd ?_ (hNone _ ((mem_keptItems ks).mpr ⟨k - 1, by omega, rfl⟩))
    show 0 + (k - 1) + 1 = k
    omega

theorem Moved.lines_kept {p' : Page} (hm : Moved p p' fun k => ks.getD (k - 1) 0)
    (hn : p'.pageGetMaxOffsetNumber = ks.length) :
    p'.lines = ks.map fun k => lineOf p.block (p.itemId k) := by
  rw [hm.lines_eq, hn]
  refine ext_getElem (by simp) fun i h₁ h₂ => ?_
  have hi : i < ks.length := by simpa using h₁
  simp [hi]

/-- The item numbers that a caller may pass: in order, on the page. -/
structure Named (p : Page) (itemnos : List Nat) : Prop where
  sorted : itemnos.Pairwise (· < ·)
  range : ∀ k ∈ itemnos, 1 ≤ k ∧ k ≤ p.pageGetMaxOffsetNumber
  aligned : ∀ k ∈ itemnos, (p.itemId k).lpLen.val % 8 = 0

theorem kept_filter (p : Page) (itemnos : List Nat) :
    Kept p ((range' 1 p.pageGetMaxOffsetNumber).filter fun k => decide (k ∉ itemnos)) where
  sorted := List.Pairwise.filter _ pairwise_lt_range'
  range k hk := by
    have hRange := mem_range'_1.mp (mem_of_mem_filter hk)
    omega
  short := by
    have hFilter := length_filter_le (fun k => decide (k ∉ itemnos))
      (range' 1 p.pageGetMaxOffsetNumber)
    rwa [length_range'] at hFilter

/-- The page with the items that stay stacked up against the special space. -/
def compactPage (p : Page) (ks : List Nat) : Page :=
  { p with
    block := (compactify (fun _ item => item.olditemid) p.pdSpecial p.block
      (sortItems (keptItems p ks 0))).2
    pdLower := 24 + 4 * ks.length
    pdUpper := (compactify (fun _ item => item.olditemid) p.pdSpecial p.block
      (sortItems (keptItems p ks 0))).1 }

variable (h : WellFormed p) (hAll : AllStored p)
include h hAll

theorem Kept.moved_compactPage (hk : Kept p ks) :
    Moved p (compactPage p ks) fun k => ks.getD (k - 1) 0 :=
  hk.moved h hAll rfl rfl ((hk.collected hAll).compacted h fun _ _ _ _ => rfl)

/-- `PageIndexMultiDelete` when it compacts the page. -/
theorem multiDelete_compact (hNamed : Named p itemnos) (hMany : ¬ itemnos.length ≤ 2) :
    p.pageIndexMultiDelete itemnos = some (compactPage p
      ((range' 1 p.pageGetMaxOffsetNumber).filter fun k => decide (k ∉ itemnos))) := by
  have hKept := kept_filter p itemnos
  have hScan : p.keepItems (range' 1 p.pageGetMaxOffsetNumber) itemnos 0 = _ :=
    keepItems_eq h hAll _ pairwise_lt_range' hNamed.sorted
      (fun k hk => mem_range'_1.mpr (by have hk' := hNamed.range k hk; omega))
      fun k hk => by rw [mem_range'_1] at hk; omega
  have hTotal := ((hKept.collected hAll).compactable h).totallen_le h.upper
  have hLower := h.lower
  unfold Page.pageIndexMultiDelete
  rw [if_neg hMany, if_neg (fun hBad => hBad.elim h.not_corrupted
    fun hNe => hNe (maxalign_eq_self.mpr h.specialAligned)), hScan]
  dsimp only
  rw [if_neg (by simp), if_neg (by omega), length_keptItems, mul_comm]
  rfl

theorem pageIndexMultiDelete_spec (hNamed : Named p itemnos) :
    ∃ p', p.pageIndexMultiDelete itemnos = some p' ∧ WellFormed p' ∧
      p'.lines = removeFrom 1 p.lines itemnos := by
  by_cases hMany : itemnos.length ≤ 2
  · unfold Page.pageIndexMultiDelete
    match itemnos, hNamed, hMany with
    | [], _, _ => exact ⟨p, rfl, h, (removeFrom_nil _ 1).symm⟩
    | [a], hNamed, _ =>
      obtain ⟨ha, ha'⟩ := hNamed.range a (by simp)
      obtain ⟨p', hEq, hwf, -, -, hLines⟩ :=
        pageIndexTupleDelete_spec h ha ha' hAll (hNamed.aligned a (by simp))
      refine ⟨p', ?_, hwf, ?_⟩
      · simp [hEq]
      · rw [hLines, removeFrom_cons_nos (by simp) _ ha, removeFrom_nil]
    | [a, b], hNamed, _ =>
      obtain ⟨ha, ha'⟩ := hNamed.range a (by simp)
      obtain ⟨hb, hb'⟩ := hNamed.range b (by simp)
      have hab : a < b := by simpa using hNamed.sorted
      -- The higher one goes first, so the lower one keeps its number.
      obtain ⟨p₁, hEq₁, hwf₁, hn₁, hLens, hLines₁⟩ :=
        pageIndexTupleDelete_spec h hb hb' hAll (hNamed.aligned b (by simp))
      have hAll₁ : AllStored p₁ := by
        intro k hk hk'
        rw [ItemIdData.hasStorage, hLens k hk (by omega)]
        refine hAll _ ?_ ?_ <;> unfold beforeDelete <;> split <;> omega
      have hLen₁ : (p₁.itemId a).lpLen.val % 8 = 0 := by
        rw [hLens a ha (by omega), beforeDelete, if_pos hab]
        exact hNamed.aligned a (by simp)
      obtain ⟨p₂, hEq₂, hwf₂, -, -, hLines₂⟩ :=
        pageIndexTupleDelete_spec hwf₁ ha (by omega) hAll₁ hLen₁
      refine ⟨p₂, ?_, hwf₂, ?_⟩
      · simp [hEq₁, hEq₂]
      · rw [hLines₂, hLines₁, removeFrom_cons_nos (by simpa using hab) _ ha,
          removeFrom_cons_nos (by simp) _ hb, removeFrom_nil]
  · have hm := (kept_filter p itemnos).moved_compactPage h hAll
    refine ⟨_, multiDelete_compact h hAll hNamed hMany, hm.wellFormed h, ?_⟩
    rw [hm.lines_kept (maxOffset_of_lower rfl), lines_eq_range, removeFrom_range]

end PgTuning.Bufpage
