import PgTuning.Access.HashOvfl

/-!
# Runs of a hash index

Every step of every process keeps the invariant, from the index that `_hash_metapinit` builds on.
-/

namespace PgTuning.Hash

open List Function Nat Grows

/-! ## One more overflow page -/

/-- The index that a step leads to: the invariant holds again, and no page has moved. -/
structure Follows (metap : HashMetaPage) (s : HashIndex) : Prop where
  inv : HashInv s
  grows : Grows metap s.metap

theorem pages_addSpare (m : HashMetaPage) : m.addSpare.pages = m.pages + 1 := by
  simp [HashMetaPage.addSpare, HashMetaPage.pages]

variable {i n nblocks p k : Nat} {m : HashMetaPage} {s : HashIndex}

theorem spares_addSpare (m : HashMetaPage) (hi : i < m.ovflpoint) :
    m.addSpare.spares i = m.spares i := by
  simp [HashMetaPage.addSpare, update_of_ne hi.ne]

theorem Grows.addSpare (m : HashMetaPage) : Grows m m.addSpare := by
  refine ⟨le_rfl, fun i hi => spares_addSpare m hi, ?_⟩
  simp [HashMetaPage.addSpare, HashMetaPage.pages]

/-- Counts that grow with the splitpoint still do once the last one is replaced. -/
theorem update_mono {f : Nat → Nat} {v : Nat} (hMono : ∀ i j, i ≤ j → j < k → f i ≤ f j)
    (hLast : ∀ i < k, f i ≤ v) (i j : Nat) (hij : i ≤ j) (hj : j ≤ k) :
    update f k v i ≤ update f k v j := by
  simp only [update_apply]
  split_ifs
  · exact le_rfl
  · omega
  · exact hLast i (by omega)
  · exact hMono i j hij (by omega)

theorem Layout.addSpare (h : Layout m) : Layout m.addSpare := by
  refine { h with spares_zero := ?_, spares_mono := ?_ }
  · rw [spares_addSpare m h.point_pos]
    exact h.spares_zero
  · refine update_mono (fun i j hij hj => h.spares_mono i j hij hj.le) fun i hi => ?_
    exact le_succ_of_le (h.spares_mono i _ hi.le le_rfl)

/-- The page after the last one is at the end of the file. -/
theorem bitnoToBlkno_pages (hm : Layout m) :
    bitnoToBlkno m m.pages = 2 ^ m.ovflpoint + m.pages + 1 := by
  obtain ⟨-, hLe, -, hLast⟩ := splitOf_spec hm m.pages
  have hMono := hm.spares_mono _ _ hLe le_rfl
  have hEnd : splitOf m m.pages = m.ovflpoint := by
    rcases hLast with hLast | hWithin
    · exact hLast
    · unfold HashMetaPage.pages at *
      omega
  rw [bitnoToBlkno_eq, hEnd]
  omega

theorem AtPoint.bitnoToBlkno (hm : Layout m) (hAt : AtPoint m (n + 1) k) :
    bitnoToBlkno m n = 2 ^ k + (n + 1) := by
  have hLess : n < m.pages := hAt.within.trans (hm.spares_mono _ _ hAt.le le_rfl)
  rw [bitnoToBlkno_eq, (atPoint_splitOf hm hLess).unique hAt]

theorem bitnoToBlkno_addSpare (hm : Layout m) :
    bitnoToBlkno m.addSpare m.pages = 2 ^ m.ovflpoint + m.pages + 1 := by
  refine AtPoint.bitnoToBlkno hm.addSpare ⟨hm.point_pos, le_rfl, ?_, (pages_addSpare m).ge⟩
  intro j hj
  rw [spares_addSpare m hj]
  exact lt_succ_of_le (hm.spares_mono j _ hj.le le_rfl)

theorem bitnoToBlkno_lt_end (hm : Layout m) (hn : n < m.pages) :
    bitnoToBlkno m n < 2 ^ m.ovflpoint + m.pages + 1 := by
  have hPow := Nat.pow_le_pow_right two_pos (atPoint_splitOf hm hn).le
  rw [bitnoToBlkno_eq]
  omega

theorem hashGetnewbuf_eq {blkno : Nat} (hLe : blkno ≤ s.nblocks)
    (hValid : blkno < invalidBlockNumber) :
    ∃ nblocks, hashGetnewbuf blkno s = some { s with nblocks } ∧ blkno < nblocks ∧
      s.nblocks ≤ nblocks := by
  unfold hashGetnewbuf
  rw [if_neg hValid.ne, if_neg hLe.not_gt]
  split
  · rename_i hEnd
    exact ⟨s.nblocks + 1, rfl, by omega, by omega⟩
  · exact ⟨s.nblocks, rfl, by omega, le_rfl⟩

/-- A page is added that goes to a bucket. Its bit was set before it existed. -/
theorem HashInv.addPage (h : HashInv s) (hRoom : s.metap.pages < 32768 * s.metap.nmaps)
    (hNoMap : s.metap.pages % 32768 ≠ 0)
    (hFile : 2 ^ s.metap.ovflpoint + s.metap.pages + 1 < nblocks) :
    HashInv { s with
      metap := s.metap.addSpare
      nblocks
      inUse := (2 ^ s.metap.ovflpoint + s.metap.pages + 1) :: s.inUse } := by
  have hPages := pages_addSpare s.metap
  have hGrown : HashInv { s with metap := s.metap.addSpare, nblocks } :=
    h.morePages (addSpare _) h.layout.addSpare rfl rfl rfl rfl (by omega) (by omega)
      (show 2 ^ s.metap.ovflpoint + s.metap.addSpare.pages + 1 ≤ nblocks by omega)
  have hNew : ¬ Plain s.metap s.metap.pages := fun hPlain => lt_irrefl _ hPlain.1
  rw [← bitnoToBlkno_addSpare h.layout]
  refine hGrown.usePage ⟨?_, hNoMap⟩ (fun hMem => ?_) (fun q hq => hNew (h.held q _ hq).1)
    fun hn hBit => hNew (h.free _ hn hBit).1
  · show s.metap.pages < s.metap.addSpare.pages
    omega
  · obtain ⟨n, hPlain, hEq⟩ := h.used _ hMem
    have hLess := bitnoToBlkno_lt_end h.layout hPlain.1
    rw [← hEq, bitnoToBlkno_addSpare h.layout] at hLess
    exact hLess.false

/-- The metapage with one more bitmap page, which is its last overflow page. -/
def HashMetaPage.addMap (m : HashMetaPage) (blkno : Nat) : HashMetaPage :=
  { m with mapp := update m.mapp m.nmaps blkno, nmaps := m.nmaps + 1 }

theorem Grows.addMap (m : HashMetaPage) (blkno : Nat) : Grows m (m.addMap blkno) :=
  ⟨le_rfl, fun _ _ => rfl, le_rfl⟩

theorem Layout.addMap (h : Layout m) (blkno : Nat) : Layout (m.addMap blkno) :=
  { h with }

section

variable (h : HashInv s) {mapblkno : Nat}
include h

/-- A bitmap page is added, with all bits set, once the last one is used up. -/
theorem HashInv.addBitmap (hFull : s.metap.pages = 32768 * s.metap.nmaps)
    (hMaps : s.metap.nmaps < hashMaxBitmaps)
    (hFile : 2 ^ s.metap.ovflpoint + s.metap.pages + 1 < nblocks) :
    HashInv { s with
      metap := (s.metap.addMap (2 ^ s.metap.ovflpoint + s.metap.pages + 1)).addSpare
      nblocks
      bitmaps := update s.bitmaps (2 ^ s.metap.ovflpoint + s.metap.pages + 1)
        fun _ => BitVec.allOnes 32 } := by
  generalize hEnd : 2 ^ s.metap.ovflpoint + s.metap.pages + 1 = blkno at hFile ⊢
  have hLayout := h.layout.addMap blkno
  have hPages : (s.metap.addMap blkno).addSpare.pages = s.metap.pages + 1 :=
    pages_addSpare (s.metap.addMap blkno)
  have hMapp : ∀ i < s.metap.nmaps,
      (s.metap.addMap blkno).addSpare.mapp i = s.metap.mapp i := fun i hi =>
    update_of_ne hi.ne ..
  have hMappEnd : (s.metap.addMap blkno).addSpare.mapp s.metap.nmaps = blkno :=
    update_self ..
  refine h.regrow ((addMap s.metap blkno).trans (addSpare _)) hLayout.addSpare rfl rfl
    (fun i hi => ⟨lt_succ_of_lt hi, hMapp i hi⟩) (fun i hi hNot => ?_)
    (show 32768 * (s.metap.nmaps + 1) < (s.metap.addMap blkno).addSpare.pages + 32768 by omega)
    (show (s.metap.addMap blkno).addSpare.pages ≤ 32768 * (s.metap.nmaps + 1) by omega) hMaps
    (fun n hn hBit => ?_)
    (show 2 ^ s.metap.ovflpoint + (s.metap.addMap blkno).addSpare.pages + 1 ≤ nblocks by omega)
  · obtain rfl := Nat.eq_of_lt_succ_of_not_lt hi hNot
    rw [← hFull]
    exact hMappEnd.trans (hEnd.symm.trans (bitnoToBlkno_addSpare hLayout).symm)
  · have hn : n < 32768 * (s.metap.nmaps + 1) := hn
    rcases lt_or_eq_of_le (show n / 32768 ≤ s.metap.nmaps by omega) with hOld | hNew
    · -- a bit of an older bitmap page
      have hOther : s.metap.mapp (n / 32768) ≠ blkno := by
        have hLess := bitnoToBlkno_lt_end h.layout (h.map_bit_lt hOld)
        rw [h.mapp _ hOld]
        omega
      simp only [bitOf, hMapp _ hOld, update_of_ne hOther] at hBit
      exact ⟨by omega, hBit⟩
    · -- the new bitmap page has no clear bit
      simp only [bitOf, hNew, hMappEnd, update_self, isSet_allOnes] at hBit
      cases hBit

omit h in
theorem Follows.firstfree (h : Follows m s) (moved : Prop) [Decidable moved] (firstfree : Nat) :
    Follows m { s with metap := if moved then { s.metap with firstfree } else s.metap } := by
  split_ifs
  · exact ⟨h.inv.morePages { refl s.metap with }
      { h.inv.layout with } rfl rfl rfl rfl le_rfl h.inv.maps_upper h.inv.file,
      { h.grows with }⟩
  · exact h

theorem bmpgMask_eq : s.metap.bmpgMask = 32767 := by
  simp [HashMetaPage.bmpgMask, HashMetaPage.bmpgszBit, h.bmsize]

theorem HashInv.and_mask (n : Nat) : n &&& s.metap.bmpgMask = n % 32768 := by
  rw [bmpgMask_eq h]
  exact and_two_pow_sub_one_eq_mod n 15

theorem HashInv.shift (n : Nat) : n >>> s.metap.bmshift = n / 32768 := by
  rw [h.bmshift, shiftRight_eq_div_pow]

theorem HashInv.toIdle (p : Nat) : HashInv (s.setProc p .idle) :=
  h.setProc (fun _ hHolds => by cases hHolds) trivial

/-- The end of `_hash_getovflpage` when the file has to grow, the new bitmap page apart. -/
theorem HashInv.appendPage (orig : Nat)
    (hRoom : s.metap.pages < 32768 * s.metap.nmaps) (hNoMap : s.metap.pages % 32768 ≠ 0) :
    Follows s.metap (match hashGetnewbuf (bitnoToBlkno s.metap (s.metap.spares s.metap.ovflpoint)) s with
      | none => s
      | some s' =>
        { s' with
          metap := if s'.metap.addSpare.firstfree = orig then
              { s'.metap.addSpare with firstfree := s.metap.spares s.metap.ovflpoint + 1 }
            else s'.metap.addSpare
          inUse := bitnoToBlkno s.metap (s.metap.spares s.metap.ovflpoint) :: s'.inUse }) := by
  have hBlkno : bitnoToBlkno s.metap (s.metap.spares s.metap.ovflpoint) =
      2 ^ s.metap.ovflpoint + s.metap.pages + 1 := bitnoToBlkno_pages h.layout
  rw [hBlkno]
  obtain ⟨nblocks, hGet, hLess, -⟩ := hashGetnewbuf_eq h.file h.bound
  rw [hGet]
  exact Follows.firstfree ⟨h.addPage hRoom hNoMap hLess, addSpare _⟩
    (s.metap.firstfree = orig) _

/-! ## Taking an overflow page -/

/-- A page past the last one is written, but not entered in the metapage. -/
theorem HashInv.writeBeyond (words : Words) (hFile : s.nblocks ≤ nblocks) :
    HashInv { s with
      nblocks
      bitmaps := update s.bitmaps (2 ^ s.metap.ovflpoint + s.metap.pages + 1) words } :=
  { h with
    file := le_trans h.file hFile
    free := by
      intro n hn hBit
      have hPage : n / 32768 < s.metap.nmaps := by
        have hn : n < 32768 * s.metap.nmaps := hn
        omega
      have hOther : s.metap.mapp (n / 32768) ≠ 2 ^ s.metap.ovflpoint + s.metap.pages + 1 := by
        rw [h.mapp _ hPage]
        exact Nat.ne_of_lt (bitnoToBlkno_lt_end h.layout (h.map_bit_lt hPage))
      simp only [bitOf, update_of_ne hOther] at hBit
      exact h.free n hn hBit }

theorem HashInv.extendOvfl (p orig : Nat) :
    Follows s.metap (extendOvfl p orig ((s.metap.pages - 1) % 32768) s) := by
  have hLower := h.maps_lower
  have hUpper := h.maps_upper
  have hMapsPos := h.maps_pos
  have hMask := bmpgMask_eq h
  have hBlkno : bitnoToBlkno s.metap (s.metap.spares s.metap.ovflpoint) =
      2 ^ s.metap.ovflpoint + s.metap.pages + 1 := bitnoToBlkno_pages h.layout
  unfold Hash.extendOvfl
  by_cases hFull : (s.metap.pages - 1) % 32768 = s.metap.bmpgMask
  · simp only [if_pos hFull]
    obtain ⟨nblocks, hGet, hLess, hFile⟩ := hashGetnewbuf_eq h.file h.bound
    simp only [hashInitbitmap, hBlkno, hGet]
    split
    · simp only [Bool.false_eq_true, if_false]
      exact ⟨(h.writeBeyond _ hFile).toIdle p, refl _⟩
    · rename_i hMaps
      have hAdded := h.addBitmap (by omega) (by omega) hLess
      have hPages : ((s.metap.addMap (2 ^ s.metap.ovflpoint + s.metap.pages + 1)).addSpare).pages =
          s.metap.pages + 1 := pages_addSpare (s.metap.addMap _)
      have hNext := (hAdded.toIdle p).appendPage orig
        (hPages.trans_lt (show _ < 32768 * (s.metap.nmaps + 1) by omega))
        (show ((s.metap.addMap _).addSpare).pages % 32768 ≠ 0 by rw [hPages]; omega)
      exact ⟨hNext.inv, ((addMap _ _).trans (addSpare _)).trans hNext.grows⟩
  · simp only [if_neg hFull, if_true]
    exact (h.toIdle p).appendPage orig (show s.metap.pages < 32768 * s.metap.nmaps by omega)
      (show s.metap.pages % 32768 ≠ 0 by omega)

theorem HashInv.searchMeta (p orig i j : Nat) :
    Follows s.metap (searchMeta p orig i j (bitsPerMap * j) s) := by
  have hUpper := h.maps_upper
  have hMapsPos := h.maps_pos
  have hSize : s.metap.bmpgszBit - 1 = 32767 := bmpgMask_eq h
  have hPages : s.metap.spares s.metap.ovflpoint = s.metap.pages := rfl
  unfold Hash.searchMeta
  simp only [h.and_mask, h.shift]
  split
  · exact h.extendOvfl p orig
  · rename_i hPage
    refine ⟨h.setProc (fun _ hHolds => by cases hHolds) ⟨by omega, rfl, ?_, rfl⟩, refl _⟩
    split <;> omega

theorem HashInv.hashGetovflpage (p : Nat) : Follows s.metap (hashGetovflpage p s) := by
  unfold Hash.hashGetovflpage
  simp only [mul_comm _ bitsPerMap]
  exact h.searchMeta p _ _ _

/-- A process sets the bit of a free page and has the page to itself. -/
theorem HashInv.claimPage (p : Nat) (proc : Proc) (hn : n < 32768 * s.metap.nmaps)
    (hClear : bitOf s n = false) (hProc : proc.holds = some n) (hPlaced : proc.WellPlaced s.metap) :
    HashInv { s.setProc p proc with
      bitmaps := update s.bitmaps (s.metap.mapp (n / 32768))
        (setBit (s.bitmaps (s.metap.mapp (n / 32768))) (n % 32768)) } := by
  obtain ⟨hPlain, hUnused, hUnheld⟩ := h.free n hn hClear
  refine h.takePage hPlain hUnheld hProc hPlaced (.refl _) hUnused fun k hk hBit => ?_
  have hBit := (h.bitOf_bit hn (isSet_setBit _ _) hk).symm.trans hBit
  split_ifs at hBit with hSame
  exact ⟨hSame, hBit⟩

/-- A process marks the first free page it finds. -/
theorem HashInv.searchMap {orig j bit lastInpage : Nat}
    (hProc : s.procs p = .searching orig i j bit lastInpage mapblkno) :
    Follows s.metap (searchMap p orig i j bit lastInpage mapblkno s) := by
  obtain ⟨hi, hBit, hLast, rfl⟩ := h.placed_at hProc
  unfold Hash.searchMap
  cases hScan : scanWords (s.bitmaps (s.metap.mapp i)) lastInpage (lastInpage + 1) j bit with
  | none =>
    simp only [hScan]
    exact ⟨h.setProc (fun _ hHolds => by cases hHolds) trivial, refl _⟩
  | some word =>
    obtain ⟨j', bit'⟩ := word
    obtain ⟨hWord, hWithin⟩ := scanWords_eq_some _ hBit hScan
    simp only [hScan]
    cases hFree : hashFirstfreebit (s.bitmaps (s.metap.mapp i) j') with
    | none => exact ⟨h.toIdle p, refl _⟩
    | some free =>
      obtain ⟨hIndex, hClear⟩ := hashFirstfreebit_eq_some hFree
      unfold bitsPerMap at hWord hIndex
      have hPage : (bit' + free + 32768 * i) / 32768 = i := by omega
      have hPlace : (bit' + free + 32768 * i) % 32768 = bit' + free := by omega
      have hWas : bitOf s (bit' + free + 32768 * i) = false := by
        rw [bitOf, hPage, hPlace, isSet, bitsPerMap, show (bit' + free) / 32 = j' by omega,
          show (bit' + free) % 32 = free by omega]
        exact hClear
      have hClaimed := h.claimPage p (.found orig i (bit' + free)) (by omega) hWas rfl trivial
      rw [hPage, hPlace] at hClaimed
      exact ⟨hClaimed, refl _⟩

theorem HashInv.returnPage (hHolds : (s.procs p).holds = some n) :
    HashInv { s.setProc p .idle with inUse := bitnoToBlkno s.metap n :: s.inUse } := by
  obtain ⟨hPlain, hUnused⟩ := h.held p n hHolds
  exact (h.toIdle p).usePage hPlain hUnused (h.unheld_setProc hHolds rfl)
    fun hn hBit => (h.free n hn hBit).2.2 p hHolds

theorem HashInv.returnFound {orig bit : Nat}
    (hProc : s.procs p = .found orig i bit) : Follows s.metap (returnFound p orig i bit s) := by
  have hHolds : (s.procs p).holds = some (bit + i <<< s.metap.bmshift) := by
    rw [hProc, h.bmshift, shiftLeft_eq, mul_comm i]
    rfl
  exact Follows.firstfree ⟨h.returnPage hHolds, refl _⟩ (s.metap.firstfree = orig) _

/-! ## Giving an overflow page back -/

theorem HashInv.hashFreeovflpage (blkno : Nat) : Follows s.metap (hashFreeovflpage p blkno s) := by
  unfold Hash.hashFreeovflpage
  split
  · rename_i hMem
    obtain ⟨n, hPlain, rfl⟩ := h.used blkno hMem
    have hUpper := h.maps_upper
    have hPage : n / 32768 < s.metap.nmaps := by
      have hn := hPlain.1
      omega
    simp only [blknoToBitno_bitnoToBlkno h.layout hPlain.1, h.shift, if_neg hPage.not_ge]
    refine ⟨h.takePage hPlain (fun q hq => (h.held q n hq).2 hMem) rfl ⟨hPage, rfl⟩
      erase_sublist h.nodup.not_mem_erase fun k hk hBit => ⟨?_, hBit⟩, refl _⟩
    exact fun hEq => (h.free k hk hBit).2.1 (hEq ▸ hMem)
  · exact ⟨h, refl _⟩

theorem HashInv.clearBit
    (hProc : s.procs p = .clearing n mapblkno) : Follows s.metap (clearBit p n mapblkno s) := by
  have hHolds : (s.procs p).holds = some n := by rw [hProc]; rfl
  obtain ⟨hPlain, hUnused⟩ := h.held p n hHolds
  obtain ⟨hPage, rfl⟩ := h.placed_at hProc
  have hNext : HashInv (s.setProc p (.cleared n)) :=
    h.setProc (fun _ hHolds => by cases hHolds) trivial
  unfold Hash.clearBit
  rw [h.and_mask]
  refine ⟨{ hNext with free := ?_ }, refl _⟩
  intro k hk hBit
  have hClear := (h.bitOf_bit (by omega) (isSet_clrBit _ _) hk).symm.trans hBit
  by_cases hSame : k = n
  · subst hSame
    exact ⟨hPlain, hUnused, h.unheld_setProc hHolds rfl⟩
  · rw [if_neg hSame] at hClear
    exact hNext.free k hk hClear

theorem HashInv.adjustFirstfree (p n : Nat) : Follows s.metap (adjustFirstfree p n s) :=
  Follows.firstfree ⟨h.toIdle p, refl _⟩ (n < s.metap.firstfree) n

end

/-! ## Splits -/

theorem layout_bucket (hm : Layout m) {bucket lowmask highmask : Nat}
    (hBucket : bucket = m.maxbucket + 1) (hUpper : bucket < 2 ^ m.ovflpoint) :
    Layout { m with maxbucket := bucket, lowmask, highmask } :=
  { hm with
    bucket_lower := by
      have hLower := hm.bucket_lower
      show 2 ^ (m.ovflpoint - 1) ≤ bucket
      omega
    bucket_upper := hUpper }

theorem layout_splitpoint (hm : Layout m) {lowmask highmask : Nat} (hPoint : m.ovflpoint < 31) :
    Layout { m with
      maxbucket := 2 ^ m.ovflpoint
      lowmask
      highmask
      spares := update m.spares (m.ovflpoint + 1) m.pages
      ovflpoint := m.ovflpoint + 1 } where
  point_pos := succ_le_succ (zero_le _)
  point_le := hPoint
  spares_zero := by simp [hm.spares_zero]
  spares_mono := update_mono (fun i j hij hj => hm.spares_mono i j hij (le_of_lt_succ hj))
    fun i hi => hm.spares_mono i _ (le_of_lt_succ hi) le_rfl
  bucket_lower := le_of_eq (congrArg (2 ^ ·) (Nat.add_sub_cancel m.ovflpoint 1))
  bucket_upper := Nat.pow_lt_pow_right (by decide) (Nat.lt_succ_self _)

theorem setMaxbucket_eq (m : HashMetaPage) (newBucket : Nat) :
    ∃ lowmask highmask, m.setMaxbucket newBucket =
      { m with maxbucket := newBucket, lowmask, highmask } := by
  unfold HashMetaPage.setMaxbucket
  simp only []
  split
  · exact ⟨_, _, rfl⟩
  · exact ⟨m.lowmask, m.highmask, rfl⟩

/-- What a split makes of the index: one more bucket, with a new splitpoint if the last bucket was the
last of its splitpoint. -/
theorem HashInv.expand (h : HashInv s) (needed lockable : Bool) :
    Follows s.metap (hashExpandtable needed lockable s) := by
  have hLayout := h.layout
  have hPointPos := hLayout.point_pos
  have hPointLe := hLayout.point_le
  have hLower := hLayout.bucket_lower
  have hUpper := hLayout.bucket_upper
  have hKept : Follows s.metap s := ⟨h, refl _⟩
  obtain ⟨lowmask, highmask, hMasks⟩ := setMaxbucket_eq s.metap (s.metap.maxbucket + 1)
  unfold hashExpandtable
  split
  · exact hKept
  split
  · exact hKept
  split
  · exact hKept
  rcases lt_or_eq_of_le (succ_le_of_lt hUpper) with hWithin | hLast
  · have hPoint : hashLog2 (s.metap.maxbucket + 1 + 1) = s.metap.ovflpoint := by
      have hLog := hashLog2_bucket (b := s.metap.maxbucket + 1) (k := s.metap.ovflpoint - 1)
        (by omega) (by omega) (by rwa [Nat.sub_add_cancel hPointPos])
      rwa [Nat.sub_add_cancel hPointPos] at hLog
    simp only [hPoint, lt_irrefl, if_false, hMasks, HashMetaPage.setOvflpoint]
    have hGrows : Grows s.metap
        { s.metap with maxbucket := s.metap.maxbucket + 1, lowmask, highmask } :=
      ⟨le_rfl, fun _ _ => rfl, le_rfl⟩
    exact ⟨h.morePages hGrows (layout_bucket hLayout rfl hWithin) rfl rfl rfl rfl le_rfl
      h.maps_upper h.file, hGrows⟩
  · have hBucket : s.metap.maxbucket + 1 = 2 ^ s.metap.ovflpoint := hLast
    have hLess : s.metap.ovflpoint < 31 := by
      by_contra hNot
      rw [show s.metap.ovflpoint = 31 by omega] at hBucket
      omega
    have hPoint : hashLog2 (s.metap.maxbucket + 1 + 1) = s.metap.ovflpoint + 1 :=
      hashLog2_bucket (by omega) (by omega) (by omega)
    have hFirst : bucketToBlkno s.metap (s.metap.maxbucket + 1) =
        2 ^ s.metap.ovflpoint + s.metap.pages + 1 := by
      rw [bucketToBlkno_eq (k := s.metap.ovflpoint) (by omega) (by omega) (by omega), hBucket]
      rfl
    have hSmall := Nat.pow_le_pow_right two_pos (Nat.le_of_lt_succ hLess :
      s.metap.ovflpoint ≤ 30)
    have hMaps := h.maps_upper
    have hMapsLe := h.maps_le
    unfold hashMaxBitmaps at hMapsLe
    -- the new block numbers do not wrap around
    have hEnd : (2 ^ s.metap.ovflpoint + s.metap.pages + 1 + 2 ^ s.metap.ovflpoint - 1) % 2 ^ 32 =
        2 * 2 ^ s.metap.ovflpoint + s.metap.pages := by
      omega
    have hAlloc : hashAllocBuckets (2 ^ s.metap.ovflpoint + s.metap.pages + 1)
        (2 ^ s.metap.ovflpoint) s = some { s with
          nblocks := max s.nblocks (2 * 2 ^ s.metap.ovflpoint + s.metap.pages + 1) } := by
      unfold hashAllocBuckets
      simp only [hEnd]
      rw [if_neg (by unfold invalidBlockNumber; omega)]
    rw [hBucket] at hPoint hFirst hMasks
    simp only [hBucket, hPoint, hFirst, lt_succ_self, if_true, hAlloc, hMasks,
      HashMetaPage.setOvflpoint]
    have hGrows : Grows s.metap { s.metap with
        maxbucket := 2 ^ s.metap.ovflpoint
        lowmask
        highmask
        spares := update s.metap.spares (s.metap.ovflpoint + 1) s.metap.pages
        ovflpoint := s.metap.ovflpoint + 1 } :=
      ⟨le_succ _, fun i hi => update_of_ne (by omega) ..,
        le_of_eq (update_of_ne (Nat.ne_of_lt (Nat.lt_succ_self _)) ..).symm⟩
    have hPages : update s.metap.spares (s.metap.ovflpoint + 1) s.metap.pages
        (s.metap.ovflpoint + 1) = s.metap.pages := update_self ..
    refine ⟨h.morePages hGrows (layout_splitpoint hLayout hLess) rfl rfl rfl rfl hPages.ge
      (hPages.trans_le hMaps) ?_, hGrows⟩
    refine le_trans (le_of_eq (congrArg (2 ^ (s.metap.ovflpoint + 1) + · + 1) hPages)) ?_
    omega

/-! ## Every run -/

variable (dnumbuckets : ℚ)

theorem initialBuckets_eq : ∃ k, 1 ≤ k ∧ k ≤ 30 ∧ initialBuckets dnumbuckets = 2 ^ k := by
  unfold initialBuckets
  split
  · exact ⟨1, by decide, by decide, rfl⟩
  · rename_i hMore
    split
    · exact ⟨30, by decide, by decide, rfl⟩
    · rename_i hLess
      have hLower : 2 ≤ ⌊dnumbuckets⌋.toNat := by
        have hFloor : (2 : ℤ) ≤ ⌊dnumbuckets⌋ := Int.le_floor.mpr (by
          exact le_of_lt (not_le.mp hMore))
        omega
      have hUpper : ⌊dnumbuckets⌋.toNat ≤ 2 ^ 30 := by
        have hFloor : ⌊dnumbuckets⌋ < (2 ^ 30 : ℤ) := Int.floor_lt.mpr (by
          exact lt_of_lt_of_le (not_le.mp hLess) (by norm_num))
        omega
      rw [hashLog2_eq (by omega), shiftLeft_eq, one_mul]
      refine ⟨_, ?_, ?_, rfl⟩
      · exact clog_pos (by decide) hLower
      · exact clog_le_of_le_pow hUpper

theorem hashLog2_pow (hk : k ≤ 32) : hashLog2 (2 ^ k) = k := by
  rw [hashLog2_eq (Nat.pow_le_pow_right (by decide) hk)]
  exact clog_pow 2 k (by decide)

/-- The metapage of an index with `2 ^ k` buckets and one bitmap page. -/
def initialMeta (k : Nat) : HashMetaPage where
  bmsize := 1 <<< 12
  bmshift := 12 + 3
  maxbucket := 2 ^ k - 1
  highmask := 2 ^ k <<< 1 - 1
  lowmask := 2 ^ k - 1
  ovflpoint := k
  firstfree := 0
  nmaps := 0 + 1
  spares := update (fun _ => 0) k 1
  mapp := update (fun _ => 0) 0 (2 ^ k + 1)

theorem layout_initialMeta (hPos : 1 ≤ k) (hLe : k ≤ 30) : Layout (initialMeta k) := by
  have hTwo := Nat.two_pow_pos k
  have hHalf : 2 * 2 ^ (k - 1) = 2 ^ k := by
    rw [← pow_succ', succ_eq_add_one, Nat.sub_add_cancel hPos]
  exact {
    point_pos := hPos
    point_le := le_succ_of_le hLe
    spares_zero := by simp [initialMeta, Nat.ne_of_lt hPos]
    spares_mono := update_mono (fun _ _ _ _ => le_rfl) fun _ _ => zero_le _
    bucket_lower := by
      show 2 ^ (k - 1) ≤ 2 ^ k - 1
      omega
    bucket_upper := by
      show 2 ^ k - 1 < 2 ^ k
      omega }

theorem pages_initialMeta (k : Nat) : (initialMeta k).pages = 1 := by
  simp [initialMeta, HashMetaPage.pages]

theorem hashMetapinit_eq : ∃ k, 1 ≤ k ∧ k ≤ 30 ∧ hashMetapinit dnumbuckets =
      { metap := initialMeta k
        nblocks := 2 ^ k + 1 + 1
        bitmaps := update (fun _ _ => 0) (2 ^ k + 1) fun _ => BitVec.allOnes 32
        procs := fun _ => .idle
        inUse := [] } := by
  obtain ⟨k, hPos, hLe, hBuckets⟩ := initialBuckets_eq dnumbuckets
  have hPow := Nat.pow_le_pow_right two_pos hLe
  have hNew : (2 ^ k + 1 = invalidBlockNumber) = False := by
    unfold invalidBlockNumber
    simp only [eq_iff_iff, iff_false]
    omega
  have hShift : bitmapLog2 hashGetMaxBitmapSize (hashLog2 hashGetMaxBitmapSize) = 12 := by decide
  have hMaps : (0 ≥ hashMaxBitmaps) = False := by decide
  refine ⟨k, hPos, hLe, ?_⟩
  unfold hashMetapinit
  simp only [hBuckets, hashLog2_pow (by omega : k ≤ 32), hashInitbitmap, hashGetnewbuf, hNew, lt_irrefl]
  rfl

theorem hashInv_metapinit : HashInv (hashMetapinit dnumbuckets) := by
  obtain ⟨k, hPos, hLe, hInit⟩ := hashMetapinit_eq dnumbuckets
  rw [hInit]
  have hLayout := layout_initialMeta hPos hLe
  have hPages := pages_initialMeta k
  have hFirst : bitnoToBlkno (initialMeta k) 0 = 2 ^ k + 1 := by
    refine AtPoint.bitnoToBlkno hLayout ⟨hPos, le_rfl, fun j hj => ?_, le_of_eq hPages.symm⟩
    exact (update_of_ne hj.ne 1 fun _ => 0).trans_lt zero_lt_one
  exact {
    bmsize := rfl
    bmshift := rfl
    layout := hLayout
    maps_pos := le_refl 1
    maps_lower := by
      show 32768 * 1 < (initialMeta k).pages + 32768
      omega
    maps_upper := by
      show (initialMeta k).pages ≤ 32768 * 1
      omega
    maps_le := by
      show 1 ≤ hashMaxBitmaps
      decide
    mapp := by
      intro i hi
      have hi : i < 1 := hi
      rw [show i = 0 by omega]
      exact hFirst.symm
    file := by
      show 2 ^ k + (initialMeta k).pages + 1 ≤ 2 ^ k + 1 + 1
      omega
    free := by
      intro n hn hBit
      have hn : n < 32768 * 1 := hn
      have hMap : (initialMeta k).mapp (n / 32768) = 2 ^ k + 1 := by
        rw [show n / 32768 = 0 by omega]
        rfl
      simp only [bitOf, hMap, update_self, isSet_allOnes] at hBit
      cases hBit
    used := fun blkno hMem => absurd hMem not_mem_nil
    nodup := nodup_nil
    held := fun p n hHolds => by cases hHolds
    held_once := fun p q n hHolds => by cases hHolds
    placed := fun p => trivial }

theorem HashInv.step (h : HashInv s) (e : HashEvent) : Follows s.metap (hashStep s e) := by
  have hSame : Follows s.metap s := ⟨h, refl _⟩
  cases e with
  | split needed lockable => exact h.expand needed lockable
  | getovflpage p =>
    simp only [hashStep]
    split
    · exact h.hashGetovflpage p
    · exact hSame
  | freeovflpage p blkno =>
    simp only [hashStep]
    split
    · exact h.hashFreeovflpage blkno
    · exact hSame
  | resume p =>
    simp only [hashStep]
    cases hProc : s.procs p with
    | idle => exact hSame
    | searching orig i j bit lastInpage mapblkno => exact h.searchMap hProc
    | nextPage orig i => exact h.searchMeta p orig i 0
    | found orig i bit => exact h.returnFound hProc
    | clearing ovflbitno mapblkno => exact h.clearBit hProc
    | cleared ovflbitno => exact h.adjustFirstfree p ovflbitno

theorem HashInv.run (h : HashInv s) (events : List HashEvent) :
    Follows s.metap (events.foldl hashStep s) := by
  induction events generalizing s with
  | nil => exact ⟨h, refl _⟩
  | cons e events ih =>
    have hStep := h.step e
    have hRest := ih hStep.inv
    exact ⟨hRest.inv, hStep.grows.trans hRest.grows⟩

inductive PageUse
  | metapage
  | bucket (b : Nat)
  | overflow (bitno : Nat)
  | bitmap (i : Nat)
  deriving DecidableEq, Repr

variable {u : PageUse}

/-- The pages there are: buckets to the end of the splitpoint, overflow pages apart from those that
are bitmap pages, and bitmap pages. -/
def PageUse.Exists (metap : HashMetaPage) : PageUse → Prop
  | .metapage => True
  | .bucket b => b < 2 ^ metap.ovflpoint
  | .overflow bitno => Plain metap bitno
  | .bitmap i => i < metap.nmaps

def PageUse.blkno (metap : HashMetaPage) : PageUse → Nat
  | .metapage => 0
  | .bucket b => bucketToBlkno metap b
  | .overflow bitno => bitnoToBlkno metap bitno
  | .bitmap i => metap.mapp i

/-- No two pages of the index share a block number, and block numbers and bits correspond. -/
structure PagesApart (s : HashIndex) : Prop where
  distinct : ∀ u v : PageUse, u.Exists s.metap → v.Exists s.metap →
    u.blkno s.metap = v.blkno s.metap → u = v
  valid : ∀ u : PageUse, u.Exists s.metap → u.blkno s.metap < invalidBlockNumber
  inverse : ∀ n < s.metap.pages, blknoToBitno s.metap (bitnoToBlkno s.metap n) = some n
  in_use : ∀ blkno ∈ s.inUse, ∃ n, PageUse.Exists s.metap (.overflow n) ∧
    blkno = PageUse.blkno s.metap (.overflow n)

/-- The overflow page that a use of a page is, if it is one. -/
theorem HashInv.exists_bitno (h : HashInv s) (hu : u.Exists s.metap) :
    (∃ b, u = .bucket b) ∨ u = .metapage ∨ ∃ n < s.metap.pages, u.blkno s.metap = bitnoToBlkno s.metap n ∧
      ((u = .overflow n ∧ n % 32768 ≠ 0) ∨ (u = .bitmap (n / 32768) ∧ n % 32768 = 0)) := by
  cases u with
  | metapage => exact .inr (.inl rfl)
  | bucket b => exact .inl ⟨b, rfl⟩
  | overflow n => exact .inr (.inr ⟨n, hu.1, rfl, .inl ⟨rfl, hu.2⟩⟩)
  | bitmap i =>
    refine .inr (.inr ⟨32768 * i, h.map_bit_lt hu, h.mapp i hu, .inr ⟨?_, by omega⟩⟩)
    rw [Nat.mul_div_cancel_left i (by decide)]

theorem bucketToBlkno_injective (hm : Layout m) {b b' : Nat} (hb : b < 2 ^ m.ovflpoint)
    (hb' : b' < 2 ^ m.ovflpoint) (hEq : bucketToBlkno m b = bucketToBlkno m b') : b = b' := by
  rcases lt_trichotomy b b' with hLess | hSame | hLess
  · exact absurd hEq (Nat.ne_of_lt (bucketToBlkno_lt hm hLess hb'))
  · exact hSame
  · exact absurd hEq.symm (Nat.ne_of_lt (bucketToBlkno_lt hm hLess hb))

section

variable (h : HashInv s) (hu : u.Exists s.metap)
include h hu

theorem HashInv.blkno_eq_zero (hZero : u.blkno s.metap = 0) : u = .metapage := by
  rcases h.exists_bitno hu with ⟨b, rfl⟩ | rfl | ⟨n, -, hBlkno, -⟩
  · exact absurd hZero (succ_ne_zero _)
  · rfl
  · rw [hBlkno] at hZero
    exact absurd hZero (succ_ne_zero _)

theorem HashInv.distinct {v : PageUse} (hv : v.Exists s.metap)
    (hEq : u.blkno s.metap = v.blkno s.metap) : u = v := by
  rcases h.exists_bitno hu with ⟨b, rfl⟩ | rfl | ⟨n, hn, hBlkno, hUse⟩
  · rcases h.exists_bitno hv with ⟨b', rfl⟩ | rfl | ⟨n', hn', hBlkno', -⟩
    · exact congrArg _ (bucketToBlkno_injective h.layout hu hv hEq)
    · exact h.blkno_eq_zero hu hEq
    · exact absurd (hEq.trans hBlkno') (bucketToBlkno_ne_bitnoToBlkno h.layout hu hn')
  · exact (h.blkno_eq_zero hv hEq.symm).symm
  · rcases h.exists_bitno hv with ⟨b', rfl⟩ | rfl | ⟨n', hn', hBlkno', hUse'⟩
    · exact absurd (hEq.symm.trans hBlkno) (bucketToBlkno_ne_bitnoToBlkno h.layout hv hn)
    · exact h.blkno_eq_zero hu hEq
    · -- two uses of one overflow page are the same use
      rw [hBlkno, hBlkno'] at hEq
      obtain rfl := bitnoToBlkno_injective h.layout hn hn' hEq
      rcases hUse with ⟨rfl, hPlain⟩ | ⟨rfl, hMap⟩
      · rcases hUse' with ⟨rfl, -⟩ | ⟨-, hMap⟩
        · rfl
        · exact absurd hMap hPlain
      · rcases hUse' with ⟨-, hPlain⟩ | ⟨rfl, -⟩
        · exact absurd hMap hPlain
        · rfl

theorem HashInv.blkno_le :
    u.blkno s.metap ≤ 2 ^ s.metap.ovflpoint + s.metap.pages := by
  rcases h.exists_bitno hu with ⟨b, rfl⟩ | rfl | ⟨n, hn, hBlkno, -⟩
  · have hb : b < 2 ^ s.metap.ovflpoint := hu
    have hPoint := h.layout.point_le
    show bucketToBlkno s.metap b ≤ _
    rcases Nat.eq_zero_or_pos b with rfl | hPos
    · rw [bucketToBlkno_zero]
      omega
    · obtain ⟨k, hk, hLower, hUpper⟩ := exists_bucket_point (by omega : b ≠ 0) hb
      have hMono := h.layout.spares_mono k s.metap.ovflpoint (by omega) le_rfl
      rw [bucketToBlkno_eq (by omega) hLower hUpper, HashMetaPage.pages]
      omega
  · exact zero_le _
  · have hLess := bitnoToBlkno_lt_end h.layout hn
    omega

end

theorem HashInv.pagesApart (h : HashInv s) : PagesApart s where
  distinct := fun _ _ hu hv hEq => h.distinct hu hv hEq
  valid := by
    intro u hu
    have hLe := h.blkno_le hu
    have hBound := h.bound
    omega
  inverse := fun n hn => blknoToBitno_bitnoToBlkno h.layout hn
  in_use := h.used

/-- In every interleaving of splits, allocations and frees the pages of the index are apart, a page
that is handed to a bucket is in no bucket's chain, and the pages there are keep their block numbers
whatever comes after. -/
theorem hash_pages_never_collide (before after : List HashEvent) :
    let s := before.foldl hashStep (hashMetapinit dnumbuckets)
    let later := after.foldl hashStep s
    PagesApart s ∧
      (∀ e blkno, (hashStep s e).inUse = blkno :: s.inUse → blkno ∉ s.inUse) ∧
      (∀ b < 2 ^ s.metap.ovflpoint, bucketToBlkno later.metap b = bucketToBlkno s.metap b) ∧
      ∀ n < s.metap.pages, bitnoToBlkno later.metap n = bitnoToBlkno s.metap n ∧
        blknoToBitno later.metap (bitnoToBlkno s.metap n) =
          blknoToBitno s.metap (bitnoToBlkno s.metap n) := by
  intro s later
  have hInv : HashInv s := ((hashInv_metapinit dnumbuckets).run before).inv
  obtain ⟨hLater, hGrows⟩ := hInv.run after
  refine ⟨hInv.pagesApart, ?_, fun b hb => hGrows.bucketToBlkno hInv.layout hb, ?_⟩
  · intro e blkno hTaken
    have hNodup := (hInv.step e).inv.nodup
    rw [hTaken] at hNodup
    exact (nodup_cons.mp hNodup).1
  · intro n hn
    obtain ⟨hStill, hSame⟩ := hGrows.bitnoToBlkno hInv.layout hLater.layout hn
    refine ⟨hSame, ?_⟩
    rw [blknoToBitno_bitnoToBlkno hInv.layout hn, ← hSame]
    exact blknoToBitno_bitnoToBlkno hLater.layout hStill

end PgTuning.Hash
