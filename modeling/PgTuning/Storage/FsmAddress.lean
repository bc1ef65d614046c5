import PgTuning.Storage.Bufpage

/-!
# Addresses in the free-space map

The map of `freespace.c` is a tree of pages. A page has an address, its level and its number
within the level, and a block number in the file of the map. The counts are those of the
source's `int`, `BlockNumber` and `uint16`: `none` stands for a value out of range.
-/

namespace PgTuning.Fsm

open PgTuning.Bufpage Option Nat

def nodesPerPage : Nat := blcksz - maxalign sizeOfPageHeaderData - 4

def nonLeafNodesPerPage : Nat := blcksz / 2 - 1

def leafNodesPerPage : Nat := nodesPerPage - nonLeafNodesPerPage

def slotsPerFSMPage : Nat := leafNodesPerPage

def fsmTreeDepth : Nat := if slotsPerFSMPage ≥ 1626 then 3 else 4

@[ext]
structure FSMAddress where
  level : Nat
  logpageno : Nat
  deriving DecidableEq

/-- A value stored in an `int`. -/
def int (n : Nat) : Option Nat := if n < 2 ^ 31 then some n else none

/-- A value stored in a `BlockNumber`. -/
def blockNumber (n : Nat) : Option Nat := if n < 2 ^ 32 then some n else none

/-- A value stored in a `uint16`. -/
def uint16 (n : Nat) : Option Nat := if n < 2 ^ 16 then some n else none

/-- The second loop of `fsm_logical_to_physical`: `pages`, counted from `leafno` upwards. -/
def countPages : Nat → Nat → Nat → Option Nat
  | 0, pages, _ => some pages
  | l + 1, pages, leafno => do
    let pages ← blockNumber (pages + (← int (leafno + 1)))
    countPages l pages (leafno / slotsPerFSMPage)

def fsmLogicalToPhysical (addr : FSMAddress) : Option Nat := do
  let leafno ← (List.range addr.level).foldlM (fun leafno _ => int (leafno * slotsPerFSMPage))
    addr.logpageno
  let pages ← countPages fsmTreeDepth 0 leafno
  if addr.level + 1 ≤ pages then some (pages - addr.level - 1) else none

def fsmGetLocation (heapblk : Nat) : Option (FSMAddress × Nat) :=
  return (⟨0, ← int (heapblk / slotsPerFSMPage)⟩, ← uint16 (heapblk % slotsPerFSMPage))

def fsmGetHeapBlk (addr : FSMAddress) (slot : Nat) : Option Nat :=
  blockNumber (addr.logpageno * slotsPerFSMPage + slot)

def fsmGetParent (child : FSMAddress) : Option (FSMAddress × Nat) :=
  return (⟨child.level + 1, ← int (child.logpageno / slotsPerFSMPage)⟩,
    ← uint16 (child.logpageno % slotsPerFSMPage))

def fsmGetChild (parent : FSMAddress) (slot : Nat) : Option FSMAddress :=
  return ⟨parent.level - 1, ← int (parent.logpageno * slotsPerFSMPage + slot)⟩

/-! ## The tree -/

/-- The pages of a map for all heap blocks: those with some heap block below them. -/
def FSMAddress.InUse (a : FSMAddress) : Prop :=
  a.level < fsmTreeDepth ∧ a.logpageno * slotsPerFSMPage ^ (a.level + 1) < 2 ^ 32 - 1

/-- The first bottom page below a page. -/
def FSMAddress.firstLeaf (a : FSMAddress) : Nat := a.logpageno * slotsPerFSMPage ^ a.level

/-- Depth-first order: a page comes before those below it, and they come before the next one. -/
def FSMAddress.Precedes (a b : FSMAddress) : Prop :=
  a.firstLeaf < b.firstLeaf ∨ a.firstLeaf = b.firstLeaf ∧ b.level < a.level

/-- What the addresses and numbers are meant to be. That each function returns a value says that
no step goes out of range. -/
structure Addressing : Prop where
  location : ∀ heapblk < 2 ^ 32 - 1, ∃ addr slot, fsmGetLocation heapblk = some (addr, slot) ∧
    addr.InUse ∧ fsmGetHeapBlk addr slot = some heapblk
  child : ∀ parent slot, parent.InUse → 0 < parent.level → slot < slotsPerFSMPage →
    ∃ child, fsmGetChild parent slot = some child ∧ fsmGetParent child = some (parent, slot)
  number : ∀ a, a.InUse → ∃ n, fsmLogicalToPhysical a = some n
  injective : ∀ a b, a.InUse → b.InUse → fsmLogicalToPhysical a = fsmLogicalToPhysical b → a = b
  depthFirst : ∀ a b m n, a.InUse → b.InUse → fsmLogicalToPhysical a = some m →
    fsmLogicalToPhysical b = some n → (m < n ↔ a.Precedes b)
  parent : ∀ a, a.InUse → a.level + 1 < fsmTreeDepth → ∃ b slot,
    fsmGetParent a = some (b, slot) ∧ b.InUse ∧ b.Precedes a
  gapless : ∀ a m, a.InUse → fsmLogicalToPhysical a = some m →
    ∀ n < m, ∃ b, b.InUse ∧ fsmLogicalToPhysical b = some n

/-! ## The numbers -/

theorem slots_eq : slotsPerFSMPage = 4069 := rfl

variable {a : FSMAddress} {b : FSMAddress}

theorem inUse_iff : a.InUse ↔ (a.level = 0 ∧ a.logpageno ≤ 1055533) ∨
    (a.level = 1 ∧ a.logpageno ≤ 259) ∨ (a.level = 2 ∧ a.logpageno = 0) := by
  obtain ⟨level, n⟩ := a
  have hDepth : fsmTreeDepth = 3 := rfl
  unfold FSMAddress.InUse
  rw [hDepth, slots_eq]
  match level with
  | 0 => simp; omega
  | 1 => simp; omega
  | 2 => simp; omega
  | level + 3 => exact iff_of_false (fun h => absurd h.1 (by simp)) (by simp)

/-- The first bottom pages below the pages of a level. -/
structure LeafOf (leaf level : Nat) : Prop where
  bound : leaf ≤ 1055533
  depth : level ≤ 2
  aligned : level = 1 → leaf % 4069 = 0
  root : level = 2 → leaf = 0

theorem FSMAddress.InUse.leafOf (h : a.InUse) : LeafOf a.firstLeaf a.level := by
  unfold FSMAddress.firstLeaf
  rw [slots_eq]
  rcases inUse_iff.mp h with ⟨hLevel, hn⟩ | ⟨hLevel, hn⟩ | ⟨hLevel, hn⟩ <;> rw [hLevel] <;>
    constructor <;> omega

theorem LeafOf.exists_inUse {leaf level : Nat} (h : LeafOf leaf level) :
    ∃ a : FSMAddress, a.InUse ∧ a.firstLeaf = leaf ∧ a.level = level := by
  obtain ⟨hBound, hDepth, hAligned, hRoot⟩ := h
  refine ⟨⟨level, leaf / 4069 ^ level⟩, inUse_iff.mpr ?_, ?_, rfl⟩
  · dsimp only
    rcases (by omega : level = 0 ∨ level = 1 ∨ level = 2) with rfl | rfl | rfl <;> omega
  · unfold FSMAddress.firstLeaf
    rw [slots_eq]
    rcases (by omega : level = 0 ∨ level = 1 ∨ level = 2) with rfl | rfl | rfl <;> dsimp only <;>
      omega

theorem eq_of_leaf (hLeaf : a.firstLeaf = b.firstLeaf) (hLevel : a.level = b.level) : a = b := by
  unfold FSMAddress.firstLeaf at hLeaf
  rw [hLevel] at hLeaf
  exact FSMAddress.ext hLevel (Nat.eq_of_mul_eq_mul_right (Nat.pow_pos (by decide)) hLeaf)

/-- The pages before one. -/
def number (a : FSMAddress) : Nat :=
  a.firstLeaf + a.firstLeaf / 4069 + a.firstLeaf / 4069 / 4069 + 2 - a.level

theorem int_eq {n : Nat} (h : n < 2 ^ 31) : int n = some n := if_pos h

theorem countPages_eq {leafno : Nat} (h : leafno ≤ 1055533) :
    countPages fsmTreeDepth 0 leafno =
      some (leafno + leafno / 4069 + leafno / 4069 / 4069 + 3) := by
  have hStep : ∀ {l pages leafno : Nat}, pages + leafno < 2 ^ 31 - 1 →
      countPages (l + 1) pages leafno = countPages l (pages + (leafno + 1)) (leafno / 4069) := by
    intro l pages leafno hSum
    rw [countPages, int_eq (by omega)]
    simp only [bind_eq_bind, bind_some]
    rw [blockNumber, if_pos (by omega)]
    rfl
  have hDepth : fsmTreeDepth = 0 + 1 + 1 + 1 := rfl
  rw [hDepth, hStep (by omega), hStep (by omega), hStep (by omega), countPages, some.injEq]
  omega

theorem firstLeaf_eq (h : a.InUse) : (List.range a.level).foldlM
    (fun leafno _ => int (leafno * slotsPerFSMPage)) a.logpageno = some a.firstLeaf := by
  obtain ⟨level, n⟩ := a
  rcases inUse_iff.mp h with ⟨rfl, hn⟩ | ⟨rfl, hn⟩ | ⟨rfl, rfl⟩
  · exact congrArg some (mul_one n).symm
  · change (int (n * 4069)).bind some = some (n * 4069 ^ 1)
    dsimp only at hn
    rw [int_eq (by omega), bind_some, pow_one]
  · rfl

theorem fsmLogicalToPhysical_eq (h : a.InUse) : fsmLogicalToPhysical a = some (number a) := by
  have hLeaf := h.leafOf
  have hBound := hLeaf.bound
  have hDepth := hLeaf.depth
  unfold fsmLogicalToPhysical number
  rw [firstLeaf_eq h, bind_eq_bind, bind_some, countPages_eq hBound,
    bind_some, if_pos (by omega), some.injEq]
  omega

theorem number_lt_iff (ha : a.InUse) (hb : b.InUse) : number a < number b ↔ a.Precedes b := by
  obtain ⟨h₁, h₂, h₃, h₄⟩ := ha.leafOf
  obtain ⟨k₁, k₂, k₃, k₄⟩ := hb.leafOf
  unfold number FSMAddress.Precedes
  omega

theorem number_inj (ha : a.InUse) (hb : b.InUse) (h : number a = number b) : a = b := by
  have hNot := mt (number_lt_iff ha hb).mpr (by omega)
  have hNot' := mt (number_lt_iff hb ha).mpr (by omega)
  unfold FSMAddress.Precedes at *
  exact eq_of_leaf (by omega) (by omega)

/-- The page before one in depth-first order. -/
theorem exists_previous {m : Nat} (h : a.InUse) (hm : number a = m + 1) :
    ∃ b : FSMAddress, b.InUse ∧ number b = m := by
  obtain ⟨hBound, hDepth, hAligned, hRoot⟩ := h.leafOf
  unfold number at *
  generalize a.firstLeaf = leaf at *
  generalize a.level = level at *
  -- the parent of a first child, or else the last bottom page before
  obtain ⟨leaf', level', hLeaf, hNumber⟩ : ∃ leaf' level', LeafOf leaf' level' ∧
      leaf' + leaf' / 4069 + leaf' / 4069 / 4069 + 2 - level' = m := by
    by_cases hFirst : level = 0 ∧ leaf % 4069 = 0
    · exact ⟨leaf, 1, ⟨hBound, by omega, fun _ => hFirst.2, by omega⟩, by omega⟩
    · by_cases hZero : leaf = 0
      · exact ⟨0, 2, ⟨by omega, by omega, by omega, fun _ => rfl⟩, by omega⟩
      · have hQuot : (leaf - 1) / 4069 = leaf / 4069 - level := by omega
        exact ⟨leaf - 1, 0, ⟨by omega, by omega, by omega, by omega⟩, by rw [hQuot]; omega⟩
  obtain ⟨b, hb, rfl, rfl⟩ := hLeaf.exists_inUse
  exact ⟨b, hb, hNumber⟩

theorem exists_of_le {m n : Nat} (h : a.InUse) (hm : number a = m) (hn : n ≤ m) :
    ∃ b : FSMAddress, b.InUse ∧ number b = n := by
  induction m generalizing a with
  | zero => exact ⟨a, h, by omega⟩
  | succ m ih =>
    by_cases hEq : n = m + 1
    · exact ⟨a, h, by omega⟩
    · obtain ⟨b, hb, hbm⟩ := exists_previous h hm
      exact ih hb hbm (by omega)

theorem fsmGetParent_eq (h : a.logpageno < 2 ^ 31) :
    fsmGetParent a = some (⟨a.level + 1, a.logpageno / 4069⟩, a.logpageno % 4069) := by
  unfold fsmGetParent
  rw [slots_eq, int_eq (by omega), uint16, if_pos (by omega)]
  rfl

/-- **The map is numbered depth first**, without a gap, and its addresses go back and forth. -/
theorem addressing : Addressing where
  location heapblk hBlk := by
    refine ⟨⟨0, heapblk / 4069⟩, heapblk % 4069, ?_, inUse_iff.mpr (.inl ⟨rfl, ?_⟩), ?_⟩
    · unfold fsmGetLocation
      rw [slots_eq, int_eq (by omega), uint16, if_pos (by omega)]
      rfl
    · dsimp only
      omega
    · unfold fsmGetHeapBlk blockNumber
      rw [slots_eq, if_pos (by dsimp only; omega), some.injEq]
      exact div_add_mod' heapblk 4069
  child parent slot hParent hLevel hSlot := by
    have hPage : parent.logpageno ≤ 259 := by
      rcases inUse_iff.mp hParent with h | h | h <;> omega
    rw [slots_eq] at hSlot
    refine ⟨⟨parent.level - 1, parent.logpageno * 4069 + slot⟩, ?_, ?_⟩
    · unfold fsmGetChild
      rw [slots_eq, int_eq (by omega)]
      rfl
    · rw [fsmGetParent_eq (by dsimp only; omega), some.injEq, Prod.mk.injEq]
      refine ⟨FSMAddress.ext ?_ ?_, ?_⟩
      · exact Nat.sub_add_cancel hLevel
      · dsimp only
        omega
      · dsimp only
        omega
  number a ha := ⟨_, fsmLogicalToPhysical_eq ha⟩
  injective a b ha hb hEq := by
    rw [fsmLogicalToPhysical_eq ha, fsmLogicalToPhysical_eq hb, some.injEq] at hEq
    exact number_inj ha hb hEq
  depthFirst a b m n ha hb hm hn := by
    rw [fsmLogicalToPhysical_eq ha, some.injEq] at hm
    rw [fsmLogicalToPhysical_eq hb, some.injEq] at hn
    rw [← hm, ← hn]
    exact number_lt_iff ha hb
  parent a ha hLevel := by
    have hDepth : fsmTreeDepth = 3 := rfl
    have hPage : a.logpageno < 2 ^ 31 := by
      rcases inUse_iff.mp ha with h | h | h <;> omega
    refine ⟨_, _, fsmGetParent_eq hPage, inUse_iff.mpr ?_, ?_⟩
    · dsimp only
      rcases inUse_iff.mp ha with h | h | h <;> omega
    · unfold FSMAddress.Precedes FSMAddress.firstLeaf
      rw [slots_eq]
      rcases inUse_iff.mp ha with h | h | h <;> rw [h.1] at * <;> dsimp only <;> omega
  gapless a m ha hm n hn := by
    rw [fsmLogicalToPhysical_eq ha, some.injEq] at hm
    obtain ⟨b, hb, hbn⟩ := exists_of_le ha hm (le_of_lt hn)
    exact ⟨b, hb, hbn ▸ fsmLogicalToPhysical_eq hb⟩

end PgTuning.Fsm
