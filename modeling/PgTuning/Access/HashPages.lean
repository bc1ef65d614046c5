import Mathlib.Data.Nat.Log
import PgTuning.Access.Hash

/-!
# Block numbers of a hash index

The bucket pages of each splitpoint are followed by the overflow pages allocated there. So block
numbers increase with the bucket, and with the overflow page, and no bucket's is an overflow page's.
-/

namespace PgTuning.Hash

open Nat

theorem hashLog2Loop_eq (num fuel : Nat) :
    ∀ i, num ≤ 2 ^ (i + fuel) → i ≤ clog 2 num →
      hashLog2Loop num fuel i (2 ^ i) = clog 2 num := by
  induction fuel with
  | zero =>
    intro i hTop hBelow
    exact le_antisymm hBelow (clog_le_of_le_pow hTop)
  | succ fuel ih =>
    intro i hTop hBelow
    unfold hashLog2Loop
    split_ifs with hLess
    · rw [shiftLeft_eq]
      refine ih (i + 1) (by rwa [show i + 1 + fuel = i + (fuel + 1) by omega]) ?_
      exact (lt_clog_iff_pow_lt (by decide)).mpr hLess
    · exact le_antisymm hBelow (clog_le_of_le_pow (Nat.not_lt.mp hLess))

theorem hashLog2_eq {num : Nat} (h : num ≤ 2 ^ 32) : hashLog2 num = clog 2 num :=
  hashLog2Loop_eq num 32 0 (by simpa using h) (zero_le _)

variable {b i n : Nat} {m m' : HashMetaPage}

/-- The splitpoint of a bucket, which the bucket's own bits give. -/
theorem hashLog2_bucket {k : Nat} (hk : k + 1 ≤ 32) (hLower : 2 ^ k ≤ b)
    (hUpper : b < 2 ^ (k + 1)) : hashLog2 (b + 1) = k + 1 := by
  have hSmall : b + 1 ≤ 2 ^ 32 := le_trans hUpper (Nat.pow_le_pow_right (by decide) hk)
  rw [hashLog2_eq hSmall]
  apply le_antisymm
  · exact clog_le_of_le_pow hUpper
  · exact (lt_clog_iff_pow_lt (by decide)).mpr (lt_succ_of_le hLower)

/-- What the metapage's counts satisfy. -/
structure Layout (m : HashMetaPage) : Prop where
  point_pos : 1 ≤ m.ovflpoint
  point_le : m.ovflpoint ≤ 31
  spares_zero : m.spares 0 = 0
  spares_mono : ∀ i j, i ≤ j → j ≤ m.ovflpoint → m.spares i ≤ m.spares j
  bucket_lower : 2 ^ (m.ovflpoint - 1) ≤ m.maxbucket
  bucket_upper : m.maxbucket < 2 ^ m.ovflpoint

def HashMetaPage.pages (m : HashMetaPage) : Nat := m.spares m.ovflpoint

/-- Overflow page `p`, counted from one, was allocated at splitpoint `i`. -/
structure AtPoint (m : HashMetaPage) (p i : Nat) : Prop where
  pos : 1 ≤ i
  le : i ≤ m.ovflpoint
  before : ∀ j < i, m.spares j < p
  within : p ≤ m.spares i

theorem AtPoint.unique {p j : Nat} (h : AtPoint m p i) (h' : AtPoint m p j) : i = j := by
  apply le_antisymm
  · exact Nat.le_of_not_lt fun hLess => Nat.not_lt.mpr h'.within (h.before j hLess)
  · exact Nat.le_of_not_lt fun hLess => Nat.not_lt.mpr h.within (h'.before i hLess)

theorem splitLoop_spec (m : HashMetaPage) (p fuel : Nat) :
    ∀ i, i ≤ m.ovflpoint → m.ovflpoint ≤ i + fuel → (∀ j < i, m.spares j < p) →
      i ≤ splitLoop m p fuel i ∧ splitLoop m p fuel i ≤ m.ovflpoint ∧
        (∀ j < splitLoop m p fuel i, m.spares j < p) ∧
        (splitLoop m p fuel i = m.ovflpoint ∨ p ≤ m.spares (splitLoop m p fuel i)) := by
  induction fuel with
  | zero =>
    intro i hi hFuel hBefore
    exact ⟨le_refl i, hi, hBefore, .inl (by simp only [splitLoop]; omega)⟩
  | succ fuel ih =>
    intro i hi hFuel hBefore
    unfold splitLoop
    split_ifs with hOn
    · obtain ⟨hFrom, hRest⟩ := ih (i + 1) (by omega) (by omega)
        (forall_lt_succ_right.mpr ⟨hBefore, hOn.2⟩)
      exact ⟨by omega, hRest⟩
    · exact ⟨le_refl i, hi, hBefore, by omega⟩

def splitOf (m : HashMetaPage) (n : Nat) : Nat := splitLoop m (n + 1) m.ovflpoint 1

theorem splitOf_spec (hm : Layout m) (n : Nat) :
    1 ≤ splitOf m n ∧ splitOf m n ≤ m.ovflpoint ∧ (∀ j < splitOf m n, m.spares j < n + 1) ∧
      (splitOf m n = m.ovflpoint ∨ n + 1 ≤ m.spares (splitOf m n)) := by
  refine splitLoop_spec m (n + 1) m.ovflpoint 1 hm.point_pos (by omega) ?_
  intro j hj
  have hZero := hm.spares_zero
  rw [show j = 0 by omega]
  omega

theorem atPoint_splitOf (hm : Layout m) (hn : n < m.pages) : AtPoint m (n + 1) (splitOf m n) := by
  obtain ⟨hPos, hLe, hBefore, hWithin⟩ := splitOf_spec hm n
  refine ⟨hPos, hLe, hBefore, ?_⟩
  rcases hWithin with hLast | hWithin
  · rw [hLast]
    exact hn
  · exact hWithin

theorem bitnoToBlkno_eq (m : HashMetaPage) (n : Nat) :
    bitnoToBlkno m n = 2 ^ splitOf m n + (n + 1) := by
  simp [bitnoToBlkno, splitOf, shiftLeft_eq]

/-! ## Distinct pages -/

/-- The splitpoint of a bucket of the current splitpoint or an earlier one. -/
theorem exists_bucket_point (hb : b ≠ 0) (hUpper : b < 2 ^ m.ovflpoint) :
    ∃ k, k + 1 ≤ m.ovflpoint ∧ 2 ^ k ≤ b ∧ b < 2 ^ (k + 1) := by
  refine ⟨log 2 b, ?_, pow_log_le_self 2 hb, lt_pow_succ_log_self (by decide) b⟩
  exact log_lt_of_lt_pow hb hUpper

theorem bucketToBlkno_eq {k : Nat} (hk : k + 1 ≤ 32) (hLower : 2 ^ k ≤ b)
    (hUpper : b < 2 ^ (k + 1)) : bucketToBlkno m b = b + m.spares k + 1 := by
  have hb : b ≠ 0 := by omega
  rw [bucketToBlkno, if_pos hb, hashLog2_bucket hk hLower hUpper, Nat.add_sub_cancel]

theorem bucketToBlkno_zero (m : HashMetaPage) : bucketToBlkno m 0 = 1 := rfl

theorem bucketToBlkno_lt (hm : Layout m) {b' : Nat} (hLess : b < b')
    (hUpper : b' < 2 ^ m.ovflpoint) : bucketToBlkno m b < bucketToBlkno m b' := by
  have hPoint := hm.point_le
  obtain ⟨k', hk', hLower', hUpper'⟩ := exists_bucket_point (by omega : b' ≠ 0) hUpper
  rw [bucketToBlkno_eq (by omega) hLower' hUpper']
  rcases Nat.eq_zero_or_pos b with rfl | hb
  · rw [bucketToBlkno_zero]
    omega
  · obtain ⟨k, hk, hLower, hBelow⟩ := exists_bucket_point (by omega : b ≠ 0) (by omega :
      b < 2 ^ m.ovflpoint)
    rw [bucketToBlkno_eq (by omega) hLower hBelow]
    have hOrder : k ≤ k' := by
      by_contra hMore
      have hPow := Nat.pow_le_pow_right two_pos (by omega : k' + 1 ≤ k)
      omega
    have hMono := hm.spares_mono k k' hOrder (by omega)
    omega

theorem bitnoToBlkno_lt (hm : Layout m) {n' : Nat} (hLess : n < n')
    (hPages : n' < m.pages) : bitnoToBlkno m n < bitnoToBlkno m n' := by
  have hAt := atPoint_splitOf hm (by omega : n < m.pages)
  have hAt' := atPoint_splitOf hm hPages
  have hOrder : splitOf m n ≤ splitOf m n' := by
    by_contra hMore
    have hBefore := hAt.before (splitOf m n') (by omega)
    have hWithin := hAt'.within
    omega
  have hPow := Nat.pow_le_pow_right two_pos hOrder
  rw [bitnoToBlkno_eq, bitnoToBlkno_eq]
  omega

theorem bucketToBlkno_ne_bitnoToBlkno (hm : Layout m) (hUpper : b < 2 ^ m.ovflpoint)
    (hPages : n < m.pages) : bucketToBlkno m b ≠ bitnoToBlkno m n := by
  have hPoint := hm.point_le
  have hAt := atPoint_splitOf hm hPages
  rw [bitnoToBlkno_eq]
  generalize splitOf m n = i at hAt
  have hWithin := hAt.within
  rcases Nat.eq_zero_or_pos b with rfl | hb
  · rw [bucketToBlkno_zero]
    have hPos := Nat.two_pow_pos i
    omega
  · obtain ⟨k, hk, hLower, hBelow⟩ := exists_bucket_point (by omega : b ≠ 0) hUpper
    rw [bucketToBlkno_eq (by omega) hLower hBelow]
    rcases lt_or_ge k i with hBucketFirst | hPageFirst
    · -- the bucket's splitpoint is not after the page's
      have hPow := Nat.pow_le_pow_right two_pos (by omega : k + 1 ≤ i)
      have hBefore := hAt.before k hBucketFirst
      omega
    · -- the page was there when the bucket's splitpoint was added
      have hPow := Nat.pow_le_pow_right two_pos hPageFirst
      have hMono := hm.spares_mono i k hPageFirst (by omega)
      omega

theorem bitnoLoop_eq {p : Nat} (hAt : AtPoint m p i) (hp : 1 ≤ p) (fuel : Nat) :
    ∀ j, 1 ≤ j → j ≤ i → i < j + fuel → bitnoLoop m (2 ^ i + p) fuel j = some (p - 1) := by
  induction fuel with
  | zero =>
    omega
  | succ fuel ih =>
    intro j hPos hj hFuel
    have hLe := hAt.le
    have hPow := Nat.pow_le_pow_right two_pos hj
    unfold bitnoLoop
    rw [shiftLeft_eq, one_mul, if_pos (by omega), if_neg (by omega)]
    rcases lt_or_eq_of_le hj with hBefore | rfl
    · -- an earlier splitpoint has too few pages
      have hSpares := hAt.before j hBefore
      rw [if_neg (by omega)]
      exact ih (j + 1) (by omega) hBefore (by omega)
    · have hWithin := hAt.within
      rw [Nat.add_sub_cancel_left, if_pos hWithin]

/-- `blkno_to_bitno` inverts `bitno_to_blkno` on the overflow pages that exist. -/
theorem blknoToBitno_bitnoToBlkno (hm : Layout m) (hn : n < m.pages) :
    blknoToBitno m (bitnoToBlkno m n) = some n := by
  have hAt := atPoint_splitOf hm hn
  have hLe := hAt.le
  rw [bitnoToBlkno_eq]
  exact bitnoLoop_eq hAt (by omega) m.ovflpoint 1 (le_refl 1) hAt.pos (by omega)

/-! ## Growth -/

/-- `m'` is `m` with more pages. -/
structure Grows (m m' : HashMetaPage) : Prop where
  point : m.ovflpoint ≤ m'.ovflpoint
  same : ∀ i < m.ovflpoint, m'.spares i = m.spares i
  more : m.pages ≤ m'.spares m.ovflpoint

theorem Grows.refl (m : HashMetaPage) : Grows m m := ⟨le_rfl, fun _ _ => rfl, le_rfl⟩

theorem Grows.bitnoToBlkno (h : Grows m m') (hm : Layout m) (hm' : Layout m')
    (hn : n < m.pages) : n < m'.pages ∧ bitnoToBlkno m' n = bitnoToBlkno m n := by
  have hMore := h.more
  have hPages : m.pages ≤ m'.pages := le_trans h.more (hm'.spares_mono _ _ h.point le_rfl)
  have hAt := atPoint_splitOf hm hn
  have hStill : AtPoint m' (n + 1) (splitOf m n) := by
    refine ⟨hAt.pos, le_trans hAt.le h.point, ?_, ?_⟩
    · intro j hj
      have hLe := hAt.le
      rw [h.same j (by omega)]
      exact hAt.before j hj
    · rcases lt_or_eq_of_le hAt.le with hBefore | hLast
      · rw [h.same _ hBefore]
        exact hAt.within
      · rw [hLast]
        omega
  have hEq := (atPoint_splitOf hm' (by omega : n < m'.pages)).unique hStill
  refine ⟨by omega, ?_⟩
  rw [bitnoToBlkno_eq, bitnoToBlkno_eq, hEq]

theorem Grows.bucketToBlkno (h : Grows m m') (hm : Layout m) (hb : b < 2 ^ m.ovflpoint) :
    bucketToBlkno m' b = bucketToBlkno m b := by
  rcases Nat.eq_zero_or_pos b with rfl | hPos
  · rfl
  · have hPoint := hm.point_le
    obtain ⟨k, hk, hLower, hUpper⟩ := exists_bucket_point (by omega : b ≠ 0) hb
    rw [bucketToBlkno_eq (by omega) hLower hUpper, bucketToBlkno_eq (by omega) hLower hUpper,
      h.same k (by omega)]

theorem Grows.trans {m'' : HashMetaPage} (h : Grows m m') (h' : Grows m' m'') : Grows m m'' := by
  refine ⟨le_trans h.point h'.point, ?_, ?_⟩
  · intro i hi
    rw [h'.same i (hi.trans_le h.point), h.same i hi]
  · rcases lt_or_eq_of_le h.point with hMoved | hSame
    · rw [h'.same _ hMoved]
      exact h.more
    · have hMore := h.more
      have hMore' := h'.more
      rw [HashMetaPage.pages, ← hSame] at hMore'
      omega

end PgTuning.Hash
