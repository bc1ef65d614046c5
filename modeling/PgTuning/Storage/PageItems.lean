import PgTuning.Storage.Bufpage

/-!
# The items of a page

`Page.lines` is what a page means to its users: for every offset number the bytes of
the item, or the state of a line pointer without storage. `WellFormed` is the layout
that the page operations keep. The lemmas say how line pointers and items are read
after the elementary writes to the block.
-/

namespace PgTuning.Bufpage

open PgTuning.Lib List Memory ItemIdData

/-! ## Line pointers in the block -/

theorem LpFlags.decode_code (f : LpFlags) : LpFlags.decode f.code = f := by
  cases f <;> rfl

theorem LpFlags.code_lt (f : LpFlags) : f.code < 4 := by
  cases f <;> decide

variable {b : Block} {n : Nat} {b' : Block} {p : Page}

theorem itemIdAt_congr {a a' : Nat} (h : ∀ k < 4, b (a + k) = b' (a' + k)) :
    itemIdAt b a = itemIdAt b' a' := by
  have h₀ := h 0 (by decide)
  have h₁ := h 1 (by decide)
  have h₂ := h 2 (by decide)
  have h₃ := h 3 (by decide)
  rw [Nat.add_zero, Nat.add_zero] at h₀
  unfold itemIdAt
  rw [h₀, h₁, h₂, h₃]

theorem word_eq_digits {w : Nat} (h : w < 4294967296) :
    w % 256 + 256 * (w / 256 % 256) + 65536 * (w / 65536 % 256) +
      16777216 * (w / 16777216 % 256) = w := by
  omega

theorem itemIdAt_store (b : Block) (a : Nat) (lp : ItemIdData) :
    itemIdAt (store b a lp.bytes) a = lp := by
  obtain ⟨off, flags, len⟩ := lp
  have hFlags := flags.code_lt
  have hWord : off.val + 32768 * flags.code + 131072 * len.val < 4294967296 := by omega
  have hDigits := word_eq_digits hWord
  generalize hw : off.val + 32768 * flags.code + 131072 * len.val = w at hDigits
  have hBytes : bytes ⟨off, flags, len⟩ =
      [.ofNat w, .ofNat (w / 256), .ofNat (w / 65536), .ofNat (w / 16777216)] := by
    unfold bytes
    simp only [hw]
  have hRead : itemIdAt (store b a (bytes ⟨off, flags, len⟩)) a =
      ⟨Fin.ofNat _ w, .decode (w / 32768 % 4), Fin.ofNat _ (w / 131072)⟩ := by
    rw [hBytes]
    unfold itemIdAt
    simp only [store, Nat.le_refl, Nat.le_add_right, if_true, Nat.sub_self,
      Nat.add_sub_cancel_left, getD_cons_zero, getD_cons_succ, UInt8.toNat_ofNat', hDigits]
  have h₁ : w % 32768 = off.val := by omega
  have h₂ : w / 32768 % 4 = flags.code := by omega
  have h₃ : w / 131072 % 32768 = len.val := by omega
  rw [hRead, h₂, LpFlags.decode_code]
  congr 1
  · exact Fin.ext h₁
  · exact Fin.ext h₃

/-! ## Reading line pointers after writes -/

theorem linpAddr_add (hn : 1 ≤ n) : linpAddr n + sizeOfItemIdData = 24 + 4 * n := by
  unfold linpAddr sizeOfPageHeaderData sizeOfItemIdData
  omega

theorem linpAddr_succ (n : Nat) : linpAddr (n + 1) = 24 + 4 * n := by
  unfold linpAddr sizeOfPageHeaderData sizeOfItemIdData
  omega

theorem getItemId_setItemId (b : Block) (n : Nat) (lp : ItemIdData) :
    getItemId (setItemId b n lp) n = lp := itemIdAt_store b _ lp

theorem getItemId_congr {n' : Nat}
    (h : ∀ k < 4, b (linpAddr n + k) = b' (linpAddr n' + k)) : getItemId b n = getItemId b' n' :=
  itemIdAt_congr h

theorem setItemId_outside {a : Nat} {lp : ItemIdData}
    (h : a < linpAddr n ∨ linpAddr n + 4 ≤ a) : setItemId b n lp a = b a :=
  store_outside h

theorem getItemId_setItemId_ne {m : Nat} (hn : 1 ≤ n) (hm : 1 ≤ m) (hne : n ≠ m)
    (lp : ItemIdData) : getItemId (setItemId b n lp) m = getItemId b m := by
  refine getItemId_congr fun k hk => setItemId_outside ?_
  unfold linpAddr sizeOfPageHeaderData sizeOfItemIdData
  omega

theorem getItemId_move_above {dst src m : Nat} (hm : 1 ≤ m) (h : 24 + 4 * m ≤ dst) :
    getItemId (move b dst src n) m = getItemId b m := by
  refine getItemId_congr fun k hk => move_outside (.inl ?_)
  have hAddr := linpAddr_add hm
  unfold sizeOfItemIdData at hAddr
  omega

theorem getItemId_store_above {dst m : Nat} {l : List UInt8} (hm : 1 ≤ m)
    (h : 24 + 4 * m ≤ dst) : getItemId (store b dst l) m = getItemId b m := by
  refine getItemId_congr fun k hk => store_outside (.inl ?_)
  have hAddr := linpAddr_add hm
  unfold sizeOfItemIdData at hAddr
  omega

/-! ## What a page means -/

/-- What an offset number stands for. -/
inductive Line where
  | unused
  /-- A line pointer without storage; a redirection is followed through `off`. -/
  | bare (flags : LpFlags) (off : Nat)
  | stored (flags : LpFlags) (bytes : List UInt8)
  deriving DecidableEq

def lineOf (block : Block) (lp : ItemIdData) : Line :=
  if !lp.isUsed then .unused
  else if lp.hasStorage then .stored lp.lpFlags (Memory.slice block lp.lpOff lp.lpLen)
  else .bare lp.lpFlags lp.lpOff

/-- The lines of a page, by offset number. -/
def Page.lines (p : Page) : List Line :=
  (range p.pageGetMaxOffsetNumber).map fun i => lineOf p.block (p.itemId (i + 1))

theorem length_lines (p : Page) : p.lines.length = p.pageGetMaxOffsetNumber := by
  simp [Page.lines]

theorem getElem?_lines (p : Page) (i : Nat) :
    p.lines[i]? =
      if i < p.pageGetMaxOffsetNumber then some (lineOf p.block (p.itemId (i + 1))) else none := by
  unfold Page.lines
  split_ifs with hi
  · rw [getElem?_map, getElem?_range hi]
    rfl
  · rw [getElem?_eq_none]
    simp only [length_map, length_range]
    omega

/-- Line pointers with the same state and the same bytes mean the same. -/
theorem lineOf_congr {lp lp' : ItemIdData} (hFlags : lp'.lpFlags = lp.lpFlags)
    (hLen : lp'.lpLen = lp.lpLen) (hBare : lp.hasStorage = false → lp'.lpOff = lp.lpOff)
    (hBytes : lp.hasStorage → ∀ k < lp.lpLen.val, b' (lp'.lpOff.val + k) = b (lp.lpOff.val + k)) :
    lineOf b' lp' = lineOf b lp := by
  have hUsed : lp'.isUsed = lp.isUsed := by rw [isUsed, isUsed, hFlags]
  have hStorage : lp'.hasStorage = lp.hasStorage := by
    rw [hasStorage, hasStorage, hLen]
  unfold lineOf
  rw [hUsed, hStorage, hFlags, hLen]
  cases hCase : lp.hasStorage with
  | true =>
    rw [slice_congr (hBytes hCase)]
    simp
  | false =>
    rw [hBare hCase]
    simp

/-! ## Well-formed pages -/

/-- Two line pointers have no byte in common. -/
def Apart (lp lp' : ItemIdData) : Prop :=
  lp.lpOff.val + lp.lpLen.val ≤ lp'.lpOff.val ∨ lp'.lpOff.val + lp'.lpLen.val ≤ lp.lpOff.val

/-- The bounds of a page are in order and its items lie in the item space, aligned and
apart from each other. -/
structure Laid (p : Page) : Prop where
  header : sizeOfPageHeaderData ≤ p.pdLower
  lower : p.pdLower ≤ p.pdUpper
  upper : p.pdUpper ≤ p.pdSpecial
  special : p.pdSpecial ≤ blcksz
  count : p.pdLower = sizeOfPageHeaderData + sizeOfItemIdData * p.pageGetMaxOffsetNumber
  stored : ∀ n, 1 ≤ n → n ≤ p.pageGetMaxOffsetNumber → (p.itemId n).hasStorage = true →
    (p.itemId n).lpOff.val % 8 = 0 ∧ p.pdUpper ≤ (p.itemId n).lpOff.val ∧
      (p.itemId n).lpOff.val + (p.itemId n).lpLen.val ≤ p.pdSpecial
  apart : ∀ n m, 1 ≤ n → n ≤ p.pageGetMaxOffsetNumber → 1 ≤ m → m ≤ p.pageGetMaxOffsetNumber →
    n ≠ m → (p.itemId n).hasStorage = true → (p.itemId m).hasStorage = true →
    Apart (p.itemId n) (p.itemId m)

/-- A laid-out page whose item space has aligned bounds. -/
structure WellFormed (p : Page) : Prop extends Laid p where
  upperAligned : p.pdUpper % 8 = 0
  specialAligned : p.pdSpecial % 8 = 0

theorem maxalign_eq_self : n = maxalign n ↔ n % 8 = 0 := by
  unfold maxalign
  omega

theorem Laid.not_corrupted (h : Laid p) : ¬ p.corrupted := by
  have h₁ := h.header
  have h₂ := h.lower
  have h₃ := h.upper
  have h₄ := h.special
  unfold Page.corrupted
  omega

theorem maxOffset_of_lower (h : p.pdLower = 24 + 4 * n) : p.pageGetMaxOffsetNumber = n := by
  unfold Page.pageGetMaxOffsetNumber sizeOfPageHeaderData sizeOfItemIdData
  split <;> omega

theorem Laid.lower_eq (h : Laid p) : p.pdLower = 24 + 4 * p.pageGetMaxOffsetNumber :=
  h.count

end PgTuning.Bufpage
