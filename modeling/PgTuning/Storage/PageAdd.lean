import PgTuning.Storage.PageItems

/-!
# Adding an item

`PageAddItem` selects a line pointer, makes room for it among the others if needed and
copies the item below the existing ones.
-/

namespace PgTuning.Bufpage

open PgTuning.Lib List Nat

theorem toInt_eq {n : Nat} (h : n < 2147483648) : toInt n = n := by
  unfold toInt
  rw [BitVec.toInt_eq_toNat_cond]
  simp only [BitVec.toNat_ofNat]
  omega

theorem le_maxalign (n : Nat) : n ≤ maxalign n ∧ maxalign n % 8 = 0 ∧ maxalign n < n + 8 := by
  unfold maxalign
  omega

/-! ## A page with one item more -/

/-- `p'` is `p` with an item placed at offset `r` below the others; `old k` is the offset
number that `k` had before. -/
structure Placed (p p' : Page) (item : List UInt8) (r : Nat) (old : Nat → Nat) : Prop where
  lower : p'.pdLower = 24 + 4 * p'.pageGetMaxOffsetNumber
  fits : p'.pdLower ≤ p'.pdUpper
  upper : p'.pdUpper + maxalign item.length = p.pdUpper
  special : p'.pdSpecial = p.pdSpecial
  place : 1 ≤ r ∧ r ≤ p'.pageGetMaxOffsetNumber
  new : p'.itemId r = ⟨Fin.ofNat _ p'.pdUpper, .normal, Fin.ofNat _ item.length⟩
  bytes : Memory.slice p'.block p'.pdUpper item.length = item
  frame : ∀ a, p.pdUpper ≤ a → p'.block a = p.block a
  others : ∀ k, 1 ≤ k → k ≤ p'.pageGetMaxOffsetNumber → k ≠ r →
    1 ≤ old k ∧ old k ≤ p.pageGetMaxOffsetNumber ∧ p'.itemId k = p.itemId (old k)
  inj : ∀ k m, 1 ≤ k → 1 ≤ m → k ≠ r → m ≠ r → old k = old m → k = m

section Placed

variable {p p' : Page} {item : List UInt8} {r : Nat} {old : Nat → Nat} (h : WellFormed p)
  (hItem : item ≠ []) (hp : Placed p p' item r old)
include h hItem hp

theorem Placed.newLp :
    (p'.itemId r).lpOff.val = p'.pdUpper ∧ (p'.itemId r).lpLen.val = item.length ∧
      (p'.itemId r).hasStorage := by
  have hSpecial := h.special
  have hUpper := h.upper
  have hp' := hp.upper
  have hLen := le_maxalign item.length
  have hPos : 0 < item.length := length_pos_iff.mpr hItem
  unfold blcksz at hSpecial
  rw [hp.new]
  refine ⟨?_, ?_, ?_⟩
  · exact mod_eq_of_lt (by omega)
  · exact mod_eq_of_lt (by omega)
  · have hMod : item.length % 32768 = item.length := mod_eq_of_lt (by omega)
    simp only [ItemIdData.hasStorage, Fin.ofNat, bne_iff_ne]
    omega

theorem Placed.wellFormed : WellFormed p' := by
  obtain ⟨hOff, hLen, -⟩ := hp.newLp h hItem
  have hUpper := hp.upper
  have hAlign := le_maxalign item.length
  have hOld := h.upper
  have hOldAligned := h.upperAligned
  have hSpecial := hp.special
  -- Old items stay above the new one.
  have hStored : ∀ k, 1 ≤ k → k ≤ p'.pageGetMaxOffsetNumber → k ≠ r →
      (p'.itemId k).hasStorage →
      (p'.itemId k).lpOff.val % 8 = 0 ∧ p.pdUpper ≤ (p'.itemId k).lpOff.val ∧
        (p'.itemId k).lpOff.val + (p'.itemId k).lpLen.val ≤ p.pdSpecial := by
    intro k h₁ h₂ hk hStorage
    obtain ⟨hLo, hHi, hEq⟩ := hp.others k h₁ h₂ hk
    rw [hEq] at hStorage ⊢
    exact h.stored (old k) hLo hHi hStorage
  refine ⟨⟨?_, hp.fits, ?_, ?_, hp.lower, fun k h₁ h₂ hStorage => ?_,
    fun k m h₁ h₂ h₃ h₄ hne hk hm => ?_⟩, ?_, ?_⟩
  · rw [hp.lower]
    exact le_add_right _ _
  · omega
  · rw [hSpecial]
    exact h.special
  · by_cases hk : k = r
    · rw [hk]
      omega
    · have hOne := hStored k h₁ h₂ hk hStorage
      omega
  · unfold Apart
    by_cases hkr : k = r
    · have hOther := hStored m h₃ h₄ (fun hmr => hne (hkr.trans hmr.symm)) hm
      rw [hkr]
      omega
    · by_cases hmr : m = r
      · have hOther := hStored k h₁ h₂ hkr hk
        rw [hmr]
        omega
      · obtain ⟨hkLo, hkHi, hkEq⟩ := hp.others k h₁ h₂ hkr
        obtain ⟨hmLo, hmHi, hmEq⟩ := hp.others m h₃ h₄ hmr
        rw [hkEq] at hk ⊢
        rw [hmEq] at hm ⊢
        exact h.apart _ _ hkLo hkHi hmLo hmHi (fun hEq => hne (hp.inj k m h₁ h₃ hkr hmr hEq)) hk hm
  · omega
  · rw [hSpecial]
    exact h.specialAligned

theorem Placed.newLine : lineOf p'.block (p'.itemId r) = .stored .normal item := by
  obtain ⟨hOff, hLen, hStorage⟩ := hp.newLp h hItem
  have hFlags : (p'.itemId r).lpFlags = .normal := by rw [hp.new]
  have hUsed : (p'.itemId r).isUsed := by rw [ItemIdData.isUsed, hFlags]; rfl
  unfold lineOf
  rw [hUsed, hStorage, hFlags, hOff, hLen, hp.bytes]
  rfl

omit hItem in
theorem Placed.oldLine {k : Nat} (h₁ : 1 ≤ k)
    (h₂ : k ≤ p'.pageGetMaxOffsetNumber) (hk : k ≠ r) :
    lineOf p'.block (p'.itemId k) = lineOf p.block (p.itemId (old k)) := by
  obtain ⟨hLo, hHi, hEq⟩ := hp.others k h₁ h₂ hk
  rw [hEq]
  refine lineOf_congr rfl rfl (fun _ => rfl) fun hStorage i hi => hp.frame _ ?_
  have hOne := h.stored (old k) hLo hHi hStorage
  omega

end Placed

/-! ## Storing the item -/

theorem getItemId_shuffle {b : Block} {n r k : Nat} (hr : 1 ≤ r) (hrn : r ≤ n) (hk : 1 ≤ k)
    (hkn : k ≤ n + 1) (hkr : k ≠ r) :
    getItemId (Memory.move b (linpAddr r + sizeOfItemIdData) (linpAddr r)
      ((n + 1 - r) * sizeOfItemIdData)) k = getItemId b (if k < r then k else k - 1) := by
  have hAddr : linpAddr k + 4 = 24 + 4 * k := linpAddr_add hk
  have hAddr' : linpAddr r + 4 = 24 + 4 * r := linpAddr_add hr
  unfold sizeOfItemIdData
  split_ifs with hLt
  · exact getItemId_congr fun i hi => Memory.move_outside (.inl (by omega))
  · have hPrev : linpAddr (k - 1) + 4 = 24 + 4 * (k - 1) := linpAddr_add (by omega)
    refine getItemId_congr fun i hi => ?_
    -- The cell lies `k - 1 - r` pointers into the part that is moved.
    have hCell : linpAddr k + i = linpAddr r + 4 + (4 * (k - 1 - r) + i) := by omega
    have hFrom : linpAddr (k - 1) + i = linpAddr r + (4 * (k - 1 - r) + i) := by omega
    rw [hCell, hFrom, Memory.move_inside (by omega)]

/-- The offset number a line pointer had before. -/
def oldOffset (needshuffle : Bool) (r k : Nat) : Nat :=
  if needshuffle then if k < r then k else k - 1 else k

variable {p : Page} {item : List UInt8} {r : Nat} {needshuffle isHeap : Bool} {offsetNumber : Nat}

/-- The block with the item. -/
def placedBlock (b : Block) (n r : Nat) (needshuffle : Bool) (upper : Nat) (item : List UInt8) :
    Block :=
  Memory.store
    (setItemId
      (if needshuffle then
        Memory.move b (linpAddr r + sizeOfItemIdData) (linpAddr r) ((n + 1 - r) * sizeOfItemIdData)
      else b)
      r ⟨Fin.ofNat _ upper, .normal, Fin.ofNat _ item.length⟩)
    upper item

theorem placed_of_fits {n n' upper : Nat} (hn : p.pageGetMaxOffsetNumber = n)
    (hr : 1 ≤ r) (hrn : r ≤ n + 1) (hShuffle : needshuffle → r ≤ n)
    (hn' : n' = if r = n + 1 ∨ needshuffle then n + 1 else n)
    (hUpper : upper + maxalign item.length = p.pdUpper) (hFits : 24 + 4 * n' ≤ upper) {p' : Page}
    (hp' : p' = { p with
      block := placedBlock p.block n r needshuffle upper item
      pdLower := 24 + 4 * n'
      pdUpper := upper }) :
    Placed p p' item r (oldOffset needshuffle r) ∧ p'.pageGetMaxOffsetNumber = n' := by
  have hAlign := le_maxalign item.length
  have hMax : p'.pageGetMaxOffsetNumber = n' := maxOffset_of_lower (by rw [hp'])
  subst hp'
  have hrn' : r ≤ n' := by
    rw [hn']
    split
    · exact hrn
    · omega
  have hAddr : linpAddr r + 4 = 24 + 4 * r := linpAddr_add hr
  have hLe : n' ≤ n + 1 := by
    rw [hn']
    split <;> omega
  -- A line pointer other than the new one.
  have hOther : ∀ k, 1 ≤ k → k ≤ n' → k ≠ r →
      getItemId (placedBlock p.block n r needshuffle upper item) k =
        getItemId p.block (oldOffset needshuffle r k) := by
    intro k h₁ h₂ hk
    unfold placedBlock
    rw [getItemId_store_above h₁ (by omega), getItemId_setItemId_ne hr h₁ (Ne.symm hk)]
    cases needshuffle with
    | true => exact getItemId_shuffle hr (hShuffle rfl) h₁ (by omega) hk
    | false => rfl
  refine ⟨⟨by rw [hMax], hFits, hUpper, rfl, ⟨hr, by rw [hMax]; exact hrn'⟩, ?_,
    Memory.slice_store _ _ _, fun a ha => ?_, fun k h₁ h₂ hk => ?_, fun k m h₁ h₂ hk hm hEq => ?_⟩, hMax⟩
  · show getItemId (placedBlock _ _ _ _ _ _) r = _
    unfold placedBlock
    rw [getItemId_store_above hr (by omega), getItemId_setItemId]
  · show placedBlock _ _ _ _ _ _ a = _
    unfold placedBlock
    rw [Memory.store_outside (by omega), setItemId_outside (by omega)]
    cases hCase : needshuffle with
    | true =>
      have hFull : n' = n + 1 := by rw [hn', if_pos (.inr hCase)]
      rw [if_pos rfl]
      unfold sizeOfItemIdData
      rw [Memory.move_outside (by omega)]
    | false => rfl
  · rw [hMax] at h₂
    refine ⟨?_, ?_, hOther k h₁ h₂ hk⟩
    · unfold oldOffset
      split
      · split <;> omega
      · exact h₁
    · rw [hn]
      unfold oldOffset
      cases hCase : needshuffle with
      | true =>
        rw [if_pos rfl]
        split <;> omega
      | false =>
        rw [if_neg (by decide)]
        rw [hCase] at hn'
        by_cases hLast : r = n + 1
        · omega
        · rw [if_neg (by simp [hLast])] at hn'
          omega
  · unfold oldOffset at hEq
    split at hEq
    · split at hEq <;> split at hEq <;> omega
    · exact hEq

/-- Either nothing happens, or the item is placed. -/
theorem placeItem_spec (h : WellFormed p) {n : Nat} (hn : p.pageGetMaxOffsetNumber = n)
    (hSize : item.length ≤ 2147483640) (hr : 1 ≤ r) (hShuffle : needshuffle → r ≤ n) :
    p.placeItem item (n + 1) r needshuffle isHeap = (p, invalidOffsetNumber) ∨
      ∃ p', p.placeItem item (n + 1) r needshuffle isHeap = (p', r) ∧ r ≤ n + 1 ∧
        Placed p p' item r (oldOffset needshuffle r) ∧
        p'.pageGetMaxOffsetNumber = if r = n + 1 ∨ needshuffle then n + 1 else n := by
  have hLower := h.lower_eq
  have hAlign := le_maxalign item.length
  have hNewLower : (if r = n + 1 ∨ needshuffle then p.pdLower + sizeOfItemIdData else p.pdLower) =
      24 + 4 * (if r = n + 1 ∨ needshuffle then n + 1 else n) := by
    unfold sizeOfItemIdData
    split <;> omega
  unfold Page.placeItem
  simp only [toInt_eq (show maxalign item.length < 2147483648 by omega), hNewLower]
  generalize hn' : (if r = n + 1 ∨ needshuffle then n + 1 else n) = n'
  split
  · exact .inl rfl
  · next hLimit =>
    split
    · exact .inl rfl
    · split
      · exact .inl rfl
      · next hFits =>
        right
        have hUpper : ((p.pdUpper : Int) - maxalign item.length).toNat + maxalign item.length =
            p.pdUpper := by omega
        have hPlaced := placed_of_fits hn hr (by omega) hShuffle hn'.symm hUpper (by omega) rfl
        exact ⟨_, rfl, by omega, hPlaced.1, hPlaced.2⟩

/-! ## The lines afterwards -/

/-- The line pointers from `offsetNumber` on have to make room. -/
def Inserts (n offsetNumber : Nat) (overwrite : Bool) : Prop :=
  offsetNumber ≠ invalidOffsetNumber ∧ offsetNumber ≤ maxOffsetNumber ∧ overwrite = false ∧
    offsetNumber ≤ n

/-- What an item that was added changes. -/
structure Added (old : List Line) (item : List UInt8) (offsetNumber : Nat) (overwrite : Bool)
    (r : Nat) (new : List Line) : Prop where
  /-- The item is stored where the caller asked for it. -/
  asked : offsetNumber ≠ invalidOffsetNumber → offsetNumber ≤ maxOffsetNumber → r = offsetNumber
  /-- The later ones are shifted up. -/
  inserted : Inserts old.length offsetNumber overwrite →
    new = old.insertIdx (r - 1) (.stored .normal item)
  /-- Otherwise the item comes last, or takes the place of an unused line pointer. -/
  stored : ¬ Inserts old.length offsetNumber overwrite →
    (r = old.length + 1 ∧ new = old ++ [.stored .normal item]) ∨
      (1 ≤ r ∧ r ≤ old.length ∧ old[r - 1]? = some .unused ∧
        new = old.set (r - 1) (.stored .normal item))

section Lines

variable {p' : Page} {n : Nat} (h : WellFormed p) (hItem : item ≠ [])
  (hn : p.pageGetMaxOffsetNumber = n)
include h hItem hn

theorem Placed.lines_insert (hp : Placed p p' item r (oldOffset true r))
    (hn' : p'.pageGetMaxOffsetNumber = n + 1) (hrn : r ≤ n) :
    p'.lines = p.lines.insertIdx (r - 1) (.stored .normal item) := by
  have hr := hp.place.1
  refine ext_getElem? fun i => ?_
  rw [getElem?_insertIdx, getElem?_lines, getElem?_lines, getElem?_lines, length_lines, hn']
  by_cases hi : i < n + 1
  · rw [if_pos hi]
    by_cases hir : i + 1 = r
    · rw [hir, hp.newLine h hItem, if_neg (by omega), if_pos (by omega), if_pos (by omega)]
    · rw [hp.oldLine h (by omega) (by omega) hir]
      unfold oldOffset
      by_cases hLt : i + 1 < r
      · rw [if_pos rfl, if_pos hLt, if_pos (by omega), if_pos (by omega)]
      · rw [if_pos rfl, if_neg hLt, if_neg (by omega), if_neg (by omega), if_pos (by omega)]
        rw [show i - 1 + 1 = i + 1 - 1 by omega]
  · rw [if_neg hi, if_neg (by omega), if_neg (by omega), if_neg (by omega)]

variable (hp : Placed p p' item r (oldOffset false r))
include hp

theorem Placed.lines_append (hn' : p'.pageGetMaxOffsetNumber = n + 1) (hrn : r = n + 1) :
    p'.lines = p.lines ++ [.stored .normal item] := by
  unfold Page.lines
  rw [hn', hn, range_succ, map_append, map_singleton, ← hrn, hp.newLine h hItem]
  congr 1
  refine map_congr_left fun i hi => ?_
  rw [mem_range] at hi
  exact hp.oldLine h (by omega) (by omega) (by omega)

theorem Placed.lines_set (hn' : p'.pageGetMaxOffsetNumber = n) :
    p'.lines = p.lines.set (r - 1) (.stored .normal item) := by
  have hr := hp.place.1
  refine ext_getElem? fun i => ?_
  rw [getElem?_set, getElem?_lines, getElem?_lines, length_lines, hn, hn']
  by_cases hir : r - 1 = i
  · rw [if_pos hir, show i + 1 = r by omega, hp.newLine h hItem, hir]
  · rw [if_neg hir]
    by_cases hi : i < n
    · rw [if_pos hi, if_pos hi, hp.oldLine h (by omega) (by omega) (by omega)]
      rfl
    · rw [if_neg hi, if_neg hi]

end Lines

/-! ## Selecting the line pointer -/

/-- What `selectOffset` may choose. -/
structure Selected (p p₁ : Page) (n offsetNumber : Nat) (overwrite : Bool) (r : Nat)
    (needshuffle : Bool) : Prop where
  page : ∃ hint, p₁ = { p with hasFreeLines := hint }
  pos : 1 ≤ r
  asked : offsetNumber ≠ invalidOffsetNumber → offsetNumber ≤ maxOffsetNumber → r = offsetNumber
  shuffle : needshuffle = true ↔ Inserts n offsetNumber overwrite
  free : needshuffle = false → r ≤ n → (p.itemId r).isUsed = false ∧ (p.itemId r).hasStorage = false

theorem freeSlot_spec (p : Page) (n : Nat) :
    p.freeSlot (n + 1) = n + 1 ∨
      (1 ≤ p.freeSlot (n + 1) ∧ p.freeSlot (n + 1) ≤ n ∧
        (p.itemId (p.freeSlot (n + 1))).isUsed = false ∧
        (p.itemId (p.freeSlot (n + 1))).hasStorage = false) := by
  unfold Page.freeSlot
  rw [Nat.add_sub_cancel]
  cases hFind : (range' 1 n).find? fun k => !(p.itemId k).isUsed && !(p.itemId k).hasStorage with
  | none => exact .inl rfl
  | some k =>
    have hFree := find?_some hFind
    have hMem := mem_of_find?_eq_some hFind
    rw [mem_range'_1] at hMem
    simp only [Bool.and_eq_true, Bool.not_eq_true'] at hFree
    exact .inr ⟨hMem.1, by simp only [Option.getD_some]; omega, hFree⟩

section

variable {p p₁ : Page} {n r : Nat} {overwrite needshuffle : Bool}

theorem selectOffset_spec
    (h : p.selectOffset (n + 1) offsetNumber overwrite = some (p₁, r, needshuffle)) :
    Selected p p₁ n offsetNumber overwrite r needshuffle := by
  unfold Page.selectOffset at h
  split at h
  · next hValid =>
    have hPos : 1 ≤ offsetNumber := one_le_iff_ne_zero.mpr hValid.1
    cases overwrite with
    | true =>
      simp only [if_true] at h
      split at h
      · cases h
      · next hFree =>
        cases h
        refine ⟨⟨_, rfl⟩, hPos, fun _ _ => rfl, ?_, fun _ hLe => ?_⟩
        · simp [Inserts]
        · simpa [show offsetNumber < n + 1 by omega] using hFree
    | false =>
      cases h
      refine ⟨⟨_, rfl⟩, hPos, fun _ _ => rfl, ?_, fun hNot hLe => ?_⟩
      · simp only [decide_eq_true_iff, Inserts]
        exact ⟨fun hLt => ⟨hValid.1, hValid.2, trivial, by omega⟩, fun hIns => by omega⟩
      · simp only [decide_eq_false_iff_not] at hNot
        omega
  · next hInvalid =>
    have hNot : ¬ Inserts n offsetNumber overwrite := fun hIns => hInvalid ⟨hIns.1, hIns.2.1⟩
    have hAsked : ∀ r : Nat, offsetNumber ≠ invalidOffsetNumber → offsetNumber ≤ maxOffsetNumber →
        r = offsetNumber := fun r h₁ h₂ => absurd ⟨h₁, h₂⟩ hInvalid
    split at h
    · have hSlot := freeSlot_spec p n
      simp only at h
      split at h
      · next hFull =>
        cases h
        exact ⟨⟨_, rfl⟩, by omega, hAsked _, by simpa using hNot, fun _ hLe => by omega⟩
      · next hFound =>
        cases h
        rcases hSlot with hSlot | hSlot
        · omega
        · exact ⟨⟨_, rfl⟩, hSlot.1, hAsked _, by simpa using hNot, fun _ _ => hSlot.2.2⟩
    · cases h
      exact ⟨⟨_, rfl⟩, by omega, hAsked _, by simpa using hNot, fun _ hLe => by omega⟩

theorem Selected.wellFormed
    (hs : Selected p p₁ n offsetNumber overwrite r needshuffle) (h : WellFormed p) :
    WellFormed p₁ ∧ p₁.pageGetMaxOffsetNumber = p.pageGetMaxOffsetNumber ∧ p₁.lines = p.lines := by
  obtain ⟨hint, rfl⟩ := hs.page
  exact ⟨⟨{ h with }, h.upperAligned, h.specialAligned⟩, rfl, rfl⟩

end

theorem lineOf_unused {b : Block} {lp : ItemIdData} (h : lp.isUsed = false) :
    lineOf b lp = .unused := by
  unfold lineOf
  rw [h]
  rfl

/-- An item placed at a selected line pointer. -/
theorem Selected.added {p p₁ p' : Page} {item : List UInt8} {n r : Nat}
    {overwrite needshuffle : Bool} (h : WellFormed p) (hItem : item ≠ [])
    (hn : p.pageGetMaxOffsetNumber = n) (hs : Selected p p₁ n offsetNumber overwrite r needshuffle)
    (hp : Placed p₁ p' item r (oldOffset needshuffle r)) (hrn : r ≤ n + 1)
    (hn' : p'.pageGetMaxOffsetNumber = if r = n + 1 ∨ needshuffle then n + 1 else n) :
    Added p.lines item offsetNumber overwrite r p'.lines := by
  obtain ⟨h₁, hn₁, hLines⟩ := hs.wellFormed h
  obtain ⟨-, hPos, hAsked, hShuffle, hFree⟩ := hs
  rw [hn] at hn₁
  have hLength : p.lines.length = n := by rw [length_lines, hn]
  refine ⟨hAsked, fun hIns => ?_, fun hNot => ?_⟩
  · rw [hLength] at hIns
    have hSh := hShuffle.mpr hIns
    rw [if_pos (.inr hSh)] at hn'
    rw [hSh] at hp
    have hr : r = offsetNumber := hAsked hIns.1 hIns.2.1
    rw [← hLines]
    exact hp.lines_insert h₁ hItem hn₁ hn' (by rw [hr]; exact hIns.2.2.2)
  · rw [hLength] at hNot ⊢
    have hSh : needshuffle = false := by
      by_contra hTrue
      exact hNot (hShuffle.mp (by simpa using hTrue))
    rw [hSh] at hp
    by_cases hLast : r = n + 1
    · rw [if_pos (.inl hLast)] at hn'
      rw [← hLines]
      exact .inl ⟨hLast, hp.lines_append h₁ hItem hn₁ hn' hLast⟩
    · rw [if_neg (by simp [hLast, hSh])] at hn'
      have hUnused : p.lines[r - 1]? = some .unused := by
        rw [getElem?_lines, if_pos (by omega), show r - 1 + 1 = r by omega,
          lineOf_unused (hFree hSh (by omega)).1]
      refine .inr ⟨hPos, by omega, hUnused, ?_⟩
      rw [← hLines]
      exact hp.lines_set h₁ hItem hn₁ hn'

/-- `PageAddItem` keeps the page well formed; it changes nothing but the hint, or adds the
item. -/
theorem pageAddItem_spec {p : Page} (h : WellFormed p) {item : List UInt8} (hItem : item ≠ [])
    (hSize : item.length ≤ 2147483640) (offsetNumber : Nat) (overwrite isHeap : Bool) :
    ∃ p' r, p.pageAddItem item offsetNumber overwrite isHeap = some (p', r) ∧ WellFormed p' ∧
      ((r = invalidOffsetNumber ∧ ∃ hint, p' = { p with hasFreeLines := hint }) ∨
        (r ≠ invalidOffsetNumber ∧ Added p.lines item offsetNumber overwrite r p'.lines)) := by
  unfold Page.pageAddItem
  rw [if_neg h.not_corrupted]
  dsimp only
  generalize hn : p.pageGetMaxOffsetNumber = n
  cases hSelect : p.selectOffset (n + 1) offsetNumber overwrite with
  | none => exact ⟨p, _, rfl, h, .inl ⟨rfl, p.hasFreeLines, rfl⟩⟩
  | some choice =>
    obtain ⟨p₁, r, needshuffle⟩ := choice
    have hs := selectOffset_spec hSelect
    obtain ⟨h₁, hn₁, -⟩ := hs.wellFormed h
    have hShuffle : needshuffle → r ≤ n := by
      intro hSh
      have hIns := hs.shuffle.mp hSh
      rw [hs.asked hIns.1 hIns.2.1]
      exact hIns.2.2.2
    have hPlace : p₁.placeItem item (n + 1) r needshuffle isHeap = (p₁, invalidOffsetNumber) ∨ _ :=
      placeItem_spec h₁ (hn₁.trans hn) hSize hs.pos hShuffle
    dsimp only
    rcases hPlace with hNone | ⟨p', hPlace, hrn, hp, hn'⟩
    · rw [hNone]
      exact ⟨p₁, _, rfl, h₁, .inl ⟨rfl, hs.page⟩⟩
    · rw [hPlace]
      exact ⟨p', r, rfl, hp.wellFormed h₁ hItem,
        .inr ⟨one_le_iff_ne_zero.mp hs.pos, hs.added h hItem hn hp hrn hn'⟩⟩

end PgTuning.Bufpage
