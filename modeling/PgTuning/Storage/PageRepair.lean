import PgTuning.Storage.PageCompact

/-!
# Pages whose items move

`Moved` says that the items of a page come from another page, with their bytes at new
places. It gives well-formedness and the lines of the new page; repairing a page and
deleting from it are instances. Here it is shown for `PageRepairFragmentation`.
-/

namespace PgTuning.Bufpage

open PgTuning.Lib List Page Option Nat

/-- A line pointer with its bytes at another place of the item space. -/
structure MovedItem (b b' : Block) (upper special : Nat) (lp lp' : ItemIdData) : Prop where
  flags : lp'.lpFlags = lp.lpFlags
  len : lp'.lpLen = lp.lpLen
  bare : lp.hasStorage = false → lp'.lpOff = lp.lpOff
  place : lp.hasStorage = true → lp'.lpOff.val % 8 = 0 ∧ upper ≤ lp'.lpOff.val ∧
    lp'.lpOff.val + lp.lpLen.val ≤ special
  bytes : lp.hasStorage = true → ∀ i < lp.lpLen.val, b' (lp'.lpOff.val + i) = b (lp.lpOff.val + i)

variable {special : Nat} {upper : Nat}

theorem MovedItem.hasStorage {b b' : Block} {lp lp' : ItemIdData}
    (h : MovedItem b b' upper special lp lp') : lp'.hasStorage = lp.hasStorage := by
  rw [ItemIdData.hasStorage, ItemIdData.hasStorage, h.len]

/-- The line pointers of `p'` are those of `p` at `old`, with the items moved; unused ones
may have been reset. -/
structure Moved (p p' : Page) (old : Nat → Nat) : Prop where
  lower : p'.pdLower = 24 + 4 * p'.pageGetMaxOffsetNumber
  fits : p'.pdLower ≤ p'.pdUpper
  upper : p'.pdUpper ≤ p'.pdSpecial
  special : p'.pdSpecial = p.pdSpecial
  aligned : p'.pdUpper % 8 = 0
  each : ∀ k, 1 ≤ k → k ≤ p'.pageGetMaxOffsetNumber →
    ((p.itemId (old k)).isUsed = false ∧ p'.itemId k = unusedItemId) ∨
      MovedItem p.block p'.block p'.pdUpper p'.pdSpecial (p.itemId (old k)) (p'.itemId k)
  apart : ∀ k m, 1 ≤ k → k ≤ p'.pageGetMaxOffsetNumber → 1 ≤ m → m ≤ p'.pageGetMaxOffsetNumber →
    k ≠ m → (p'.itemId k).hasStorage = true → (p'.itemId m).hasStorage = true →
    Apart (p'.itemId k) (p'.itemId m)

section Moved

variable {p p' : Page} {old : Nat → Nat}

theorem Moved.wellFormed (h : WellFormed p) (hm : Moved p p' old) : WellFormed p' := by
  refine ⟨⟨?_, hm.fits, hm.upper, ?_, hm.lower, fun k h₁ h₂ hStorage => ?_, hm.apart⟩, hm.aligned, ?_⟩
  · rw [hm.lower]
    exact le_add_right _ _
  · rw [hm.special]
    exact h.special
  · rcases hm.each k h₁ h₂ with hReset | hMoved
    · rw [hReset.2] at hStorage
      cases hStorage
    · rw [hMoved.hasStorage] at hStorage
      obtain ⟨hAligned, hUpper, hSpecial⟩ := hMoved.place hStorage
      rw [hMoved.len]
      exact ⟨hAligned, hUpper, hSpecial⟩
  · rw [hm.special]
    exact h.specialAligned

theorem Moved.line (hm : Moved p p' old) {k : Nat} (h₁ : 1 ≤ k) (h₂ : k ≤ p'.pageGetMaxOffsetNumber) :
    lineOf p'.block (p'.itemId k) = lineOf p.block (p.itemId (old k)) := by
  rcases hm.each k h₁ h₂ with hReset | hMoved
  · rw [lineOf_unused hReset.1, hReset.2]
    rfl
  · exact lineOf_congr hMoved.flags hMoved.len hMoved.bare hMoved.bytes

theorem Moved.lines_eq (hm : Moved p p' old) :
    p'.lines = (List.range p'.pageGetMaxOffsetNumber).map
      fun i => lineOf p.block (p.itemId (old (i + 1))) := by
  refine map_congr_left fun i hi => ?_
  rw [mem_range] at hi
  exact hm.line (by omega) (by omega)

end Moved

variable {n : Nat} {floor : Nat}

/-- The places of two items of a well-formed page, with their padding. -/
theorem WellFormed.padded_apart {p : Page} (h : WellFormed p) {m : Nat} (hn : 1 ≤ n)
    (hn' : n ≤ p.pageGetMaxOffsetNumber) (hm : 1 ≤ m) (hm' : m ≤ p.pageGetMaxOffsetNumber)
    (hne : n ≠ m) (hns : (p.itemId n).hasStorage) (hms : (p.itemId m).hasStorage) :
    (p.itemId n).lpOff.val + maxalign (p.itemId n).lpLen ≤ (p.itemId m).lpOff.val ∨
      (p.itemId m).lpOff.val + maxalign (p.itemId m).lpLen ≤ (p.itemId n).lpOff.val := by
  have h₁ := h.stored n hn hn' hns
  have h₂ := h.stored m hm hm' hms
  have hApart := h.apart n m hn hn' hm hm' hne hns hms
  unfold Apart at hApart
  unfold maxalign
  omega

theorem WellFormed.padded_within {p : Page} (h : WellFormed p) (hn : 1 ≤ n)
    (hn' : n ≤ p.pageGetMaxOffsetNumber) (hns : (p.itemId n).hasStorage) :
    p.pdUpper ≤ (p.itemId n).lpOff.val ∧
      (p.itemId n).lpOff.val + maxalign (p.itemId n).lpLen ≤ p.pdSpecial ∧
      0 < maxalign (p.itemId n).lpLen := by
  have h₁ := h.stored n hn hn' hns
  have h₂ := h.specialAligned
  have hPos : (p.itemId n).lpLen.val ≠ 0 := by simpa [ItemIdData.hasStorage] using hns
  unfold maxalign
  omega

theorem totallen_mod {items : List ItemIdSortData}
    (h : Compactable floor special items) : totallen items % 8 = 0 := by
  exact mod_eq_zero_of_dvd
    (Memory.total_dvd fun it hIt => dvd_of_mod_eq_zero (h.aligned it hIt).2)

theorem movedItem_bare {b b' : Block} {lp : ItemIdData}
    (h : lp.hasStorage = false) : MovedItem b b' upper special lp lp :=
  ⟨rfl, rfl, fun _ => rfl, fun hHas => absurd (h.symm.trans hHas) (by decide),
    fun hHas => absurd (h.symm.trans hHas) (by decide)⟩

theorem Compacted.movedItem {place : Nat} {b b₁ b' : Block} {lp lp' : ItemIdData}
    (hSpecial : special ≤ blcksz) (hOff : floor ≤ lp.lpOff.val)
    (hSame : ∀ a, floor ≤ a → b₁ a = b a) (hStorage : lp.hasStorage)
    (hLp : lp' = { lp with lpOff := Fin.ofNat _ place }) (hAligned : place % 8 = 0)
    (hUpper : upper ≤ place) (hFits : place + maxalign lp.lpLen ≤ special)
    (hBytes : ∀ i < maxalign lp.lpLen, b' (place + i) = b₁ (lp.lpOff.val + i)) :
    MovedItem b b' upper special lp lp' ∧ lp'.lpOff.val = place := by
  have hLen := le_maxalign lp.lpLen.val
  unfold blcksz at hSpecial
  have hPlace : lp'.lpOff.val = place := by
    rw [hLp]
    exact mod_eq_of_lt (by omega)
  refine ⟨⟨by rw [hLp], by rw [hLp], fun hNot => absurd (hNot.symm.trans hStorage) (by decide),
    fun _ => ?_, fun _ i hi => ?_⟩, hPlace⟩
  · rw [hPlace]
    omega
  · rw [hPlace, hBytes i (by omega), hSame _ (by omega)]

/-! ## Items collected for a compaction -/

/-- Each item is that of a line pointer of the page: of the one that `old` gives for its new
offset number. -/
structure Collected (p : Page) (old : Nat → Nat) (items : List ItemIdSortData) : Prop where
  item : ∀ it ∈ items, it.offsetindex < p.pageGetMaxOffsetNumber ∧
    1 ≤ old (it.offsetindex + 1) ∧ old (it.offsetindex + 1) ≤ p.pageGetMaxOffsetNumber ∧
    (p.itemId (old (it.offsetindex + 1))).hasStorage = true ∧
    it.itemoff = (p.itemId (old (it.offsetindex + 1))).lpOff ∧
    it.alignedlen = maxalign (p.itemId (old (it.offsetindex + 1))).lpLen
  order : items.Pairwise fun it it' => it.offsetindex < it'.offsetindex
  distinct : ∀ it ∈ items, ∀ it' ∈ items, it.offsetindex ≠ it'.offsetindex →
    old (it.offsetindex + 1) ≠ old (it'.offsetindex + 1)

section Collected

variable {p p' : Page} {old : Nat → Nat} {items : List ItemIdSortData} {b : Block}
  {orig : ItemIdSortData → ItemIdData} (hi : Collected p old items)
include hi

theorem Collected.nodup : (items.map ItemIdSortData.offsetindex).Nodup :=
  pairwise_map.mpr (hi.order.imp fun hLt => ne_of_lt hLt)

variable (h : WellFormed p)
include h

theorem Collected.compactable :
    Compactable p.pdUpper p.pdSpecial items := by
  refine ⟨fun it hIt => ?_, fun it hIt => ?_, hi.order.imp_of_mem ?_⟩
  · obtain ⟨-, hLo, hHi, hStorage, hOff, hLen⟩ := hi.item it hIt
    have hWithin := h.padded_within hLo hHi hStorage
    rw [hOff, hLen]
    exact ⟨hWithin.1, hWithin.2.1⟩
  · obtain ⟨-, hLo, hHi, hStorage, -, hLen⟩ := hi.item it hIt
    rw [hLen]
    exact ⟨(h.padded_within hLo hHi hStorage).2.2, (le_maxalign _).2.1⟩
  · intro it it' hIt hIt' hLt
    obtain ⟨-, hLo, hHi, hStorage, hOff, hLen⟩ := hi.item it hIt
    obtain ⟨-, hLo', hHi', hStorage', hOff', hLen'⟩ := hi.item it' hIt'
    rw [hOff, hLen, hOff', hLen']
    exact h.padded_apart hLo hHi hLo' hHi' (hi.distinct it hIt it' hIt' (Nat.ne_of_lt hLt))
      hStorage hStorage'

theorem Collected.index_le :
    ∀ it ∈ items, 24 + 4 * (it.offsetindex + 1) ≤ p.pdUpper := by
  intro it hIt
  have hIdx := (hi.item it hIt).1
  have hLower := h.lower
  have hLowerEq := h.lower_eq
  omega

theorem Collected.compacted
    {lp : Block → ItemIdSortData → ItemIdData}
    (hOld : ∀ it ∈ items, ∀ b', getItemId b' (it.offsetindex + 1) =
      getItemId b (it.offsetindex + 1) → lp b' it = orig it) :
    Compacted p.pdUpper p.pdSpecial b items orig
      (compactify lp p.pdSpecial b (sortItems items)).1
      (compactify lp p.pdSpecial b (sortItems items)).2 :=
  Bufpage.compacted (hi.compactable h) h.upper (hi.index_le h) hi.nodup hOld h.specialAligned

/-- A page with its items compacted. A line pointer without a collected item has no storage
and is an old one, or was reset. -/
theorem Collected.moved {n : Nat}
    (hLower : p'.pdLower = 24 + 4 * n) (hn : n ≤ p.pageGetMaxOffsetNumber)
    (hSpecial : p'.pdSpecial = p.pdSpecial)
    (hc : Compacted p.pdUpper p.pdSpecial b items orig p'.pdUpper p'.block)
    (hSame : ∀ a, p.pdUpper ≤ a → b a = p.block a)
    (hOrig : ∀ it ∈ items, orig it = p.itemId (old (it.offsetindex + 1)))
    (hElse : ∀ k, 1 ≤ k → k ≤ n → (∀ it ∈ items, it.offsetindex + 1 ≠ k) →
      (p'.itemId k).hasStorage = false ∧
        ((p.itemId (old k)).isUsed = false ∧ p'.itemId k = unusedItemId ∨
          p'.itemId k = p.itemId (old k))) : Moved p p' old := by
  have hn' := maxOffset_of_lower hLower
  have hTotal := (hi.compactable h).totallen_le h.upper
  have hTotalMod := totallen_mod (hi.compactable h)
  have hBound := hc.bound
  have h₁ := h.lower
  have h₂ := h.lower_eq
  have h₃ := h.specialAligned
  obtain ⟨place, hPlace⟩ := hc.moved
  have hItem : ∀ it ∈ items, MovedItem p.block p'.block p'.pdUpper p.pdSpecial
      (p.itemId (old (it.offsetindex + 1))) (p'.itemId (it.offsetindex + 1)) ∧
      (p'.itemId (it.offsetindex + 1)).lpOff.val = place it := by
    intro it hIt
    obtain ⟨-, hLo, hHi, hStorage, hOff, hLen⟩ := hi.item it hIt
    obtain ⟨⟨hLp, hMod, hUp, hFits, hBytes⟩, -⟩ := hPlace it hIt
    rw [hOrig it hIt] at hLp
    rw [hLen] at hFits hBytes
    rw [hOff] at hBytes
    exact Compacted.movedItem h.special (h.stored _ hLo hHi hStorage).2.1 hSame hStorage hLp hMod
      hUp hFits hBytes
  have hFound : ∀ k, 1 ≤ k → k ≤ n → (p'.itemId k).hasStorage →
      ∃ it ∈ items, it.offsetindex + 1 = k := by
    intro k hk hk' hStorage
    by_contra hNone
    push Not at hNone
    exact ne_true_of_eq_false (hElse k hk hk' hNone).1 hStorage
  refine ⟨by rw [hn', hLower], by omega, by omega, hSpecial, by omega, fun k hk hk' => ?_,
    fun k m hk hk' hm hm' hne hks hms => ?_⟩
  · rw [hn'] at hk'
    by_cases hIt : ∃ it ∈ items, it.offsetindex + 1 = k
    · obtain ⟨it, hIt, rfl⟩ := hIt
      rw [hSpecial]
      exact .inr (hItem it hIt).1
    · push Not at hIt
      obtain ⟨hBare, hReset | hStays⟩ := hElse k hk hk' hIt
      · exact .inl hReset
      · rw [hStays] at hBare ⊢
        exact .inr (movedItem_bare hBare)
  · rw [hn'] at hk' hm'
    obtain ⟨it, hIt, rfl⟩ := hFound k hk hk' hks
    obtain ⟨it', hIt', rfl⟩ := hFound m hm hm' hms
    obtain ⟨hMoved, hOff⟩ := hItem it hIt
    obtain ⟨hMoved', hOff'⟩ := hItem it' hIt'
    have hApart := (hPlace it hIt).2 it' hIt' (fun hEq => hne (by rw [hEq]))
    have hPad := le_maxalign (p.itemId (old (it.offsetindex + 1))).lpLen.val
    have hPad' := le_maxalign (p.itemId (old (it'.offsetindex + 1))).lpLen.val
    rw [(hi.item it hIt).2.2.2.2.2, (hi.item it' hIt').2.2.2.2.2] at hApart
    unfold Apart
    rw [hOff, hMoved.len, hMoved'.len]
    omega

end Collected

/-! ## Repairing a page -/

variable {p p' : Page}

theorem mem_repairItems {b : Block} {it : ItemIdSortData} :
    it ∈ repairItems b n ↔ ∃ i < n, (getItemId b (i + 1)).hasStorage ∧
      it = ⟨i, (getItemId b (i + 1)).lpOff, unusedItemId, maxalign (getItemId b (i + 1)).lpLen⟩ := by
  unfold repairItems
  simp only [mem_filterMap, mem_range, ite_none_right_eq_some, some.injEq,
    eq_comm (a := it)]

/-- The items are collected in the order of their line pointers. -/
theorem repairItems_order (b : Block) (n : Nat) :
    (repairItems b n).Pairwise fun it it' => it.offsetindex < it'.offsetindex := by
  unfold repairItems
  rw [pairwise_filterMap]
  refine pairwise_lt_range.imp fun {i j} hij it hIt it' hIt' => ?_
  simp only [ite_none_right_eq_some, some.injEq] at hIt hIt'
  rw [← hIt.2, ← hIt'.2]
  exact hij

theorem reset_cases (p : Page) {k : Nat} (h₁ : 1 ≤ k) (h₂ : k ≤ n) :
    ((p.itemId k).isUsed = false ∧ getItemId (resetUnused p.block n) k = unusedItemId) ∨
      ((p.itemId k).isUsed ∧ getItemId (resetUnused p.block n) k = p.itemId k) := by
  have hReset := (resetUnused_spec p.block n).1 k h₁ h₂
  cases hUsed : (p.itemId k).isUsed with
  | true =>
    rw [show getItemId p.block k = p.itemId k from rfl, hUsed] at hReset
    exact .inr ⟨rfl, hReset⟩
  | false =>
    rw [show getItemId p.block k = p.itemId k from rfl, hUsed] at hReset
    exact .inl ⟨rfl, hReset⟩

theorem reset_of_hasStorage {k : Nat} (h₁ : 1 ≤ k) (h₂ : k ≤ n)
    (hStorage : (getItemId (resetUnused p.block n) k).hasStorage) :
    getItemId (resetUnused p.block n) k = p.itemId k := by
  rcases reset_cases p h₁ h₂ with hReset | hReset
  · rw [hReset.2] at hStorage
    cases hStorage
  · exact hReset.2

theorem collected_repairItems (p : Page) :
    Collected p id (repairItems (resetUnused p.block p.pageGetMaxOffsetNumber)
      p.pageGetMaxOffsetNumber) where
  item it hIt := by
    obtain ⟨i, hi, hStorage, rfl⟩ := mem_repairItems.mp hIt
    have hSame := reset_of_hasStorage (succ_pos i) hi hStorage
    rw [hSame] at hStorage
    simp only [id_eq, hSame]
    exact ⟨hi, succ_pos i, hi, hStorage, trivial, trivial⟩
  order := repairItems_order _ _
  distinct _ _ _ _ hNe hEq := hNe (succ.inj hEq)

theorem reset_above (h : WellFormed p) {a : Nat} (ha : p.pdUpper ≤ a) :
    resetUnused p.block p.pageGetMaxOffsetNumber a = p.block a := by
  have hLower := h.lower_eq
  have hUpper := h.lower
  exact (resetUnused_spec p.block _).2 a (.inr (by omega))

/-- A page whose items were compacted after the reset. -/
theorem moved_repair (h : WellFormed p) (hn : p.pageGetMaxOffsetNumber = n)
    {items : List ItemIdSortData} (hi : Collected p id items)
    (hLower : p'.pdLower = p.pdLower) (hSpecial : p'.pdSpecial = p.pdSpecial)
    (hc : Compacted p.pdUpper p.pdSpecial (resetUnused p.block n) items
      (fun it => getItemId (resetUnused p.block n) (it.offsetindex + 1)) p'.pdUpper p'.block)
    (hItems : ∀ k, 1 ≤ k → k ≤ n → ((∃ it ∈ items, it.offsetindex + 1 = k) ↔
      (getItemId (resetUnused p.block n) k).hasStorage)) : Moved p p' id := by
  subst hn
  have hBound := h.lower
  have hLowerEq := h.lower_eq
  refine hi.moved h (hLower.trans hLowerEq) (le_refl _) hSpecial hc (fun a ha => reset_above h ha)
    (fun it hIt => ?_) fun k hk hk' hNone => ?_
  · obtain ⟨-, hLo, hHi, -⟩ := hi.item it hIt
    exact reset_of_hasStorage hLo hHi ((hItems _ hLo hHi).mp ⟨it, hIt, rfl⟩)
  · have hStays : p'.itemId k = _ := hc.others k hk (by omega) hNone
    rw [hStays]
    refine ⟨Bool.eq_false_iff.mpr fun hStorage => ?_, (reset_cases p hk hk').imp_right And.right⟩
    obtain ⟨it, hIt, hEq⟩ := (hItems k hk hk').mpr hStorage
    exact hNone it hIt hEq

theorem compacted_nil {b : Block} {orig : ItemIdSortData → ItemIdData} :
    Compacted floor special b [] orig special b :=
  ⟨rfl, ⟨fun _ => 0, fun _ hIt => absurd hIt not_mem_nil⟩, fun _ _ _ _ => rfl⟩

/-- `PageRepairFragmentation` keeps the lines of a well-formed page. -/
theorem pageRepairFragmentation_spec (h : WellFormed p) :
    ∃ p', p.pageRepairFragmentation = some p' ∧ WellFormed p' ∧ p'.lines = p.lines := by
  have hMoved : ∃ p', p.pageRepairFragmentation = some p' ∧ Moved p p' id ∧
      p'.pdLower = p.pdLower := by
    unfold pageRepairFragmentation
    rw [if_neg (fun hBad => hBad.elim h.not_corrupted fun hNe => hNe (maxalign_eq_self.mpr h.specialAligned))]
    dsimp only
    split
    · next hZero =>
      refine ⟨_, rfl, moved_repair h rfl ⟨by simp, .nil, by simp⟩ rfl rfl compacted_nil
        fun k hk hk' => ?_, rfl⟩
      rw [countP_eq_zero] at hZero
      have hNot := hZero k (mem_range'_1.mpr ⟨hk, by omega⟩)
      rcases reset_cases p hk hk' with hReset | hReset
      · rw [hReset.2]
        simp [unusedItemId, ItemIdData.hasStorage]
      · rw [hReset.2]
        simpa [hReset.1] using hNot
    · have hItems := collected_repairItems p
      have hCompactable := hItems.compactable h
      have hTotal := hCompactable.totallen_le h.upper
      have hLower := h.lower
      rw [if_neg, if_neg (by omega)]
      · refine ⟨_, rfl, moved_repair h rfl hItems rfl rfl
          (hItems.compacted h fun it _ b' hb' => hb') fun k hk hk' => ?_, rfl⟩
        constructor
        · rintro ⟨it, hIt, rfl⟩
          obtain ⟨i, -, hStorage, rfl⟩ := mem_repairItems.mp hIt
          exact hStorage
        · intro hStorage
          exact ⟨_, mem_repairItems.mpr ⟨k - 1, by omega, by rwa [Nat.sub_add_cancel hk], rfl⟩,
            Nat.sub_add_cancel hk⟩
      · rintro ⟨it, hIt, hBad⟩
        have hWithin := hCompactable.within it hIt
        have hPos := (hCompactable.aligned it hIt).1
        omega
  obtain ⟨p', hEq, hm, hLower⟩ := hMoved
  refine ⟨p', hEq, hm.wellFormed h, ?_⟩
  have hn : p'.pageGetMaxOffsetNumber = p.pageGetMaxOffsetNumber := by
    rw [pageGetMaxOffsetNumber, pageGetMaxOffsetNumber, hLower]
  rw [hm.lines_eq, hn]
  rfl

end PgTuning.Bufpage
