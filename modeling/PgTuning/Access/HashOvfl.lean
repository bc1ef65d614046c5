import PgTuning.Access.HashPages

/-!
# Overflow pages of a hash index in use

A bit of the bitmaps that is not set belongs to an overflow page that exists, that is no bitmap
page, that no bucket uses and that no process is about to return or to give back. Every step keeps
that.
-/

namespace PgTuning.Hash

open List Function BitVec

/-! ## Bits -/

theorem isSet_update {freep : Words} {m : Nat} {word : BitVec 32} {b : Bool}
    (hWord : ∀ k < 32, word.getLsbD k =
      if k = m % bitsPerMap then b else (freep (m / bitsPerMap)).getLsbD k) (n : Nat) :
    isSet (update freep (m / bitsPerMap) word) n = if n = m then b else isSet freep n := by
  have hIndex : n % bitsPerMap < 32 := Nat.mod_lt _ (by decide)
  unfold isSet
  by_cases hSame : n / bitsPerMap = m / bitsPerMap
  · have hIff : n % bitsPerMap = m % bitsPerMap ↔ n = m := by
      unfold bitsPerMap at *
      omega
    rw [hSame, update_self, hWord _ hIndex]
    simp only [hIff]
  · rw [update_of_ne hSame, if_neg fun h => hSame (by rw [h])]

theorem isSet_setBit (freep : Words) (m n : Nat) :
    isSet (setBit freep m) n = if n = m then true else isSet freep n := by
  refine isSet_update (fun k hk => ?_) n
  by_cases hSame : k = m % bitsPerMap
  · simp [← hSame, hk]
  · simp [hSame, Ne.symm hSame]

theorem isSet_clrBit (freep : Words) (m n : Nat) :
    isSet (clrBit freep m) n = if n = m then false else isSet freep n := by
  refine isSet_update (fun k hk => ?_) n
  rw [getLsbD_and, getLsbD_not, getLsbD_twoPow]
  by_cases hSame : k = m % bitsPerMap
  · simp [← hSame]
  · simp [hSame, Ne.symm hSame, hk]

theorem isSet_allOnes (n : Nat) : isSet (fun _ => BitVec.allOnes 32) n := by
  have hIndex : n % bitsPerMap < 32 := Nat.mod_lt _ (by decide)
  rw [isSet, getLsbD_allOnes, decide_eq_true hIndex]

theorem scanWords_eq_some {freep : Words} {lastInpage : Nat} (fuel : Nat) :
    ∀ {j bit j' bit' : Nat}, bit = bitsPerMap * j →
      scanWords freep lastInpage fuel j bit = some (j', bit') →
      bit' = bitsPerMap * j' ∧ bit' ≤ lastInpage := by
  induction fuel with
  | zero =>
    intro j bit j' bit' _ h
    cases h
  | succ fuel ih =>
    intro j bit j' bit' hBit h
    unfold scanWords at h
    split at h
    · split at h
      · cases h
        exact ⟨hBit, by assumption⟩
      · exact ih (by rw [hBit, Nat.mul_succ]) h
    · cases h

variable {i n : Nat} {m : HashMetaPage} {s : HashIndex}

theorem hashFirstfreebit_eq_some {map : BitVec 32} (h : hashFirstfreebit map = some i) :
    i < bitsPerMap ∧ map.getLsbD i = false := by
  have hMem := mem_of_find?_eq_some h
  have hClear := List.find?_some h
  exact ⟨mem_range.mp hMem, by simpa using hClear⟩

/-- Whether overflow page `n` is marked in its bitmap page. -/
def bitOf (s : HashIndex) (n : Nat) : Bool :=
  isSet (s.bitmaps (s.metap.mapp (n / 32768))) (n % 32768)

/-! ## The invariant -/

/-- The page that a process has to itself: it is about to return it or to give it back. -/
def Proc.holds : Proc → Option Nat
  | .found _ i bit => some (bit + 32768 * i)
  | .clearing ovflbitno _ => some ovflbitno
  | _ => none

/-- What a process read from the metapage still holds. -/
def Proc.WellPlaced (metap : HashMetaPage) : Proc → Prop
  | .searching _ i j bit lastInpage mapblkno =>
    i < metap.nmaps ∧ bit = bitsPerMap * j ∧ lastInpage < 32768 ∧ mapblkno = metap.mapp i
  | .clearing ovflbitno mapblkno =>
    ovflbitno / 32768 < metap.nmaps ∧ mapblkno = metap.mapp (ovflbitno / 32768)
  | _ => True

theorem Proc.WellPlaced.mono {m' : HashMetaPage} {proc : Proc} (h : proc.WellPlaced m)
    (hMaps : ∀ i < m.nmaps, i < m'.nmaps ∧ m'.mapp i = m.mapp i) : proc.WellPlaced m' := by
  cases proc with
  | searching orig i j bit lastInpage mapblkno =>
    obtain ⟨hi, hBit, hLast, hBlkno⟩ := h
    exact ⟨(hMaps i hi).1, hBit, hLast, hBlkno.trans (hMaps i hi).2.symm⟩
  | clearing ovflbitno mapblkno =>
    obtain ⟨hi, hBlkno⟩ := h
    exact ⟨(hMaps _ hi).1, hBlkno.trans (hMaps _ hi).2.symm⟩
  | idle | nextPage orig i | found orig i bit | cleared ovflbitno => trivial

/-- An overflow page that exists and is no bitmap page. -/
def Plain (metap : HashMetaPage) (n : Nat) : Prop := n < metap.pages ∧ n % 32768 ≠ 0

structure HashInv (s : HashIndex) : Prop where
  bmsize : s.metap.bmsize = 4096
  bmshift : s.metap.bmshift = 15
  layout : Layout s.metap
  maps_pos : 1 ≤ s.metap.nmaps
  maps_lower : 32768 * s.metap.nmaps < s.metap.pages + 32768
  maps_upper : s.metap.pages ≤ 32768 * s.metap.nmaps
  maps_le : s.metap.nmaps ≤ hashMaxBitmaps
  mapp : ∀ i < s.metap.nmaps, s.metap.mapp i = bitnoToBlkno s.metap (32768 * i)
  file : 2 ^ s.metap.ovflpoint + s.metap.pages + 1 ≤ s.nblocks
  free : ∀ n < 32768 * s.metap.nmaps, bitOf s n = false →
    Plain s.metap n ∧ bitnoToBlkno s.metap n ∉ s.inUse ∧ ∀ p, (s.procs p).holds ≠ some n
  used : ∀ blkno ∈ s.inUse, ∃ n, Plain s.metap n ∧ blkno = bitnoToBlkno s.metap n
  nodup : s.inUse.Nodup
  held : ∀ p n, (s.procs p).holds = some n →
    Plain s.metap n ∧ bitnoToBlkno s.metap n ∉ s.inUse
  held_once : ∀ p q n, (s.procs p).holds = some n → (s.procs q).holds = some n → p = q
  placed : ∀ p, (s.procs p).WellPlaced s.metap

section

variable (h : HashInv s) {nblocks : Nat}
include h

theorem HashInv.map_bit_lt (hi : i < s.metap.nmaps) : 32768 * i < s.metap.pages := by
  have hLower := h.maps_lower
  omega

omit h in
theorem bitnoToBlkno_injective (hm : Layout m) {n' : Nat} (hn : n < m.pages)
    (hn' : n' < m.pages) (hEq : bitnoToBlkno m n = bitnoToBlkno m n') : n = n' := by
  rcases Nat.lt_trichotomy n n' with hLess | hSame | hLess
  · have hOrder := bitnoToBlkno_lt hm hLess hn'
    omega
  · exact hSame
  · have hOrder := bitnoToBlkno_lt hm hLess hn
    omega

theorem HashInv.placed_at {p : Nat} {proc : Proc} (hProc : s.procs p = proc) :
    proc.WellPlaced s.metap :=
  hProc ▸ h.placed p

theorem HashInv.mapp_injective {j : Nat} (hi : i < s.metap.nmaps)
    (hj : j < s.metap.nmaps) (hEq : s.metap.mapp i = s.metap.mapp j) : i = j := by
  rw [h.mapp i hi, h.mapp j hj] at hEq
  have hSame := bitnoToBlkno_injective h.layout (h.map_bit_lt hi) (h.map_bit_lt hj) hEq
  omega

theorem HashInv.bound : 2 ^ s.metap.ovflpoint + s.metap.pages + 1 < invalidBlockNumber := by
  have hPow := Nat.pow_le_pow_right two_pos h.layout.point_le
  have hUpper := h.maps_upper
  have hMaps := h.maps_le
  unfold hashMaxBitmaps at hMaps
  unfold invalidBlockNumber
  omega

/-! ## Steps that leave the pages as they are -/

section

variable (hGrows : Grows s.metap m) (hLayout : Layout m) (hSize : m.bmsize = s.metap.bmsize)
  (hShift : m.bmshift = s.metap.bmshift)
include hGrows hLayout hSize hShift

/-- A metapage with more pages or bitmap pages, in a file that is long enough: no bit is clear
that was not. -/
theorem HashInv.regrow {bitmaps : Nat → Words}
    (hMaps : ∀ i < s.metap.nmaps, i < m.nmaps ∧ m.mapp i = s.metap.mapp i)
    (hNew : ∀ i < m.nmaps, ¬ i < s.metap.nmaps → m.mapp i = bitnoToBlkno m (32768 * i))
    (hLower : 32768 * m.nmaps < m.pages + 32768) (hUpper : m.pages ≤ 32768 * m.nmaps)
    (hLe : m.nmaps ≤ hashMaxBitmaps)
    (hBits : ∀ n < 32768 * m.nmaps, bitOf { s with metap := m, bitmaps } n = false →
      n < 32768 * s.metap.nmaps ∧ bitOf s n = false)
    (hFile : 2 ^ m.ovflpoint + m.pages + 1 ≤ nblocks) :
    HashInv { s with metap := m, nblocks, bitmaps } := by
  have hStill := fun n hn => hGrows.bitnoToBlkno h.layout hLayout (n := n) hn
  have hPlain : ∀ n, Plain s.metap n → Plain m n := fun n hn => ⟨(hStill n hn.1).1, hn.2⟩
  have hUnused : ∀ n, Plain s.metap n → bitnoToBlkno s.metap n ∉ s.inUse →
      bitnoToBlkno m n ∉ s.inUse := by
    intro n hn hNot
    rw [(hStill n hn.1).2]
    exact hNot
  exact {
    bmsize := hSize.trans h.bmsize
    bmshift := hShift.trans h.bmshift
    layout := hLayout
    maps_pos := (hMaps 0 h.maps_pos).1
    maps_lower := hLower
    maps_upper := hUpper
    maps_le := hLe
    mapp := by
      intro i hi
      by_cases hOld : i < s.metap.nmaps
      · rw [(hMaps i hOld).2, (hStill _ (h.map_bit_lt hOld)).2]
        exact h.mapp i hOld
      · exact hNew i hi hOld
    file := hFile
    free := by
      intro n hn hBit
      obtain ⟨hn, hBit⟩ := hBits n hn hBit
      obtain ⟨hOld, hNot, hUnheld⟩ := h.free n hn hBit
      exact ⟨hPlain n hOld, hUnused n hOld hNot, hUnheld⟩
    used := by
      intro blkno hMem
      obtain ⟨n, hOld, hEq⟩ := h.used blkno hMem
      exact ⟨n, hPlain n hOld, hEq.trans (hStill n hOld.1).2.symm⟩
    nodup := h.nodup
    held := by
      intro p n hHolds
      obtain ⟨hOld, hNot⟩ := h.held p n hHolds
      exact ⟨hPlain n hOld, hUnused n hOld hNot⟩
    held_once := h.held_once
    placed := fun p => (h.placed p).mono hMaps }

theorem HashInv.morePages (hMaps : m.nmaps = s.metap.nmaps) (hMapp : m.mapp = s.metap.mapp)
    (hLower : s.metap.pages ≤ m.pages) (hUpper : m.pages ≤ 32768 * s.metap.nmaps)
    (hFile : 2 ^ m.ovflpoint + m.pages + 1 ≤ nblocks) : HashInv { s with metap := m, nblocks } := by
  have hOld := h.maps_lower
  refine h.regrow hGrows hLayout hSize hShift (fun i hi => ⟨hMaps ▸ hi, by rw [hMapp]⟩)
    (fun i hi hNot => absurd (hMaps ▸ hi) hNot) (by omega) (by omega) (hMaps ▸ h.maps_le) ?_ hFile
  intro n hn hBit
  simp only [bitOf, hMapp] at hBit
  exact ⟨hMaps ▸ hn, hBit⟩

end

/-- A page that is marked, and held by nobody, goes to a bucket. -/
theorem HashInv.usePage (hPlain : Plain s.metap n)
    (hUnused : bitnoToBlkno s.metap n ∉ s.inUse) (hUnheld : ∀ q, (s.procs q).holds ≠ some n)
    (hMarked : n < 32768 * s.metap.nmaps → bitOf s n ≠ false) :
    HashInv { s with inUse := bitnoToBlkno s.metap n :: s.inUse } := by
  have hNot : ∀ k, Plain s.metap k → k ≠ n → bitnoToBlkno s.metap k ∉ s.inUse →
      bitnoToBlkno s.metap k ∉ bitnoToBlkno s.metap n :: s.inUse := fun k hk hNe hNot hMem =>
    (mem_cons.mp hMem).elim
      (fun hEq => hNe (bitnoToBlkno_injective h.layout hk.1 hPlain.1 hEq)) hNot
  exact { h with
    free := by
      intro k hk hBit
      obtain ⟨hOld, hNotIn, hOther⟩ := h.free k hk hBit
      exact ⟨hOld, hNot k hOld (fun hEq => hMarked (hEq ▸ hk) (hEq ▸ hBit)) hNotIn, hOther⟩
    used := forall_mem_cons.mpr ⟨⟨n, hPlain, rfl⟩, h.used⟩
    nodup := nodup_cons.mpr ⟨hUnused, h.nodup⟩
    held := by
      intro q k hq
      obtain ⟨hk, hNotIn⟩ := h.held q k hq
      exact ⟨hk, hNot k hk (fun hEq => hUnheld q (hEq ▸ hq)) hNotIn⟩ }

end

@[simp] theorem setProc_self (s : HashIndex) (p : Nat) (proc : Proc) :
    (s.setProc p proc).procs p = proc := update_self ..

theorem setProc_of_ne (s : HashIndex) {p q : Nat} (proc : Proc) (h : q ≠ p) :
    (s.setProc p proc).procs q = s.procs q := update_of_ne h ..

section SetProc

variable {p q : Nat} {proc : Proc}

theorem holds_of_setProc (hq : ((s.setProc p proc).procs q).holds = some n) :
    (q = p ∧ proc.holds = some n) ∨ (q ≠ p ∧ (s.procs q).holds = some n) := by
  by_cases hSame : q = p
  · rw [hSame, setProc_self] at hq
    exact .inl ⟨hSame, hq⟩
  · rw [setProc_of_ne s proc hSame] at hq
    exact .inr ⟨hSame, hq⟩

variable (h : HashInv s)
include h

theorem HashInv.placed_setProc (hPlaced : proc.WellPlaced s.metap) (q : Nat) :
    ((s.setProc p proc).procs q).WellPlaced s.metap := by
  by_cases hSame : q = p
  · rw [hSame, setProc_self]
    exact hPlaced
  · rw [setProc_of_ne s proc hSame]
    exact h.placed q

/-- A process goes on to where it holds no page, or the one that it held. -/
theorem HashInv.setProc (hHolds : ∀ n, proc.holds = some n → (s.procs p).holds = some n)
    (hPlaced : proc.WellPlaced s.metap) : HashInv (s.setProc p proc) := by
  have hOld : ∀ q n, ((s.setProc p proc).procs q).holds = some n → (s.procs q).holds = some n := by
    intro q n hq
    rcases holds_of_setProc hq with ⟨rfl, hNow⟩ | ⟨-, hOld⟩
    · exact hHolds n hNow
    · exact hOld
  exact { h with
    free := by
      intro n hn hBit
      obtain ⟨hPlain, hUnused, hUnheld⟩ := h.free n hn hBit
      exact ⟨hPlain, hUnused, fun q hq => hUnheld q (hOld q n hq)⟩
    held := fun q n hq => h.held q n (hOld q n hq)
    held_once := fun q q' n hq hq' => h.held_once q q' n (hOld q n hq) (hOld q' n hq')
    placed := h.placed_setProc hPlaced }

/-- A process comes to hold page `n`, which nobody held and which is in no bucket's chain from
then on. Its bit is set. -/
theorem HashInv.takePage {bitmaps : Nat → Words} {inUse : List Nat}
    (hPlain : Plain s.metap n) (hUnheld : ∀ q, (s.procs q).holds ≠ some n)
    (hProc : proc.holds = some n) (hPlaced : proc.WellPlaced s.metap) (hSub : inUse.Sublist s.inUse)
    (hNot : bitnoToBlkno s.metap n ∉ inUse)
    (hFree : ∀ k < 32768 * s.metap.nmaps, bitOf { s with bitmaps } k = false →
      k ≠ n ∧ bitOf s k = false) : HashInv { s.setProc p proc with bitmaps, inUse } := by
  -- a page held now is the new one, or was held before
  have hHeld : ∀ q k, ((s.setProc p proc).procs q).holds = some k →
      (q = p ∧ n = k) ∨ (s.procs q).holds = some k := by
    intro q k hq
    rcases holds_of_setProc hq with ⟨hp, hk⟩ | ⟨-, hOld⟩
    · exact .inl ⟨hp, Option.some.inj (hProc.symm.trans hk)⟩
    · exact .inr hOld
  exact { h with
    free := by
      intro k hk hBit
      obtain ⟨hNe, hClear⟩ := hFree k hk hBit
      obtain ⟨hOld, hUnused, hOther⟩ := h.free k hk hClear
      refine ⟨hOld, fun hMem => hUnused (hSub.mem hMem), fun q hq => ?_⟩
      rcases hHeld q k hq with ⟨-, hEq⟩ | hq
      · exact hNe hEq.symm
      · exact hOther q hq
    used := fun b hb => h.used b (hSub.mem hb)
    nodup := h.nodup.sublist hSub
    held := by
      intro q k hq
      rcases hHeld q k hq with ⟨-, rfl⟩ | hq
      · exact ⟨hPlain, hNot⟩
      · obtain ⟨hOld, hUnused⟩ := h.held q k hq
        exact ⟨hOld, fun hMem => hUnused (hSub.mem hMem)⟩
    held_once := by
      intro q q' k hq hq'
      rcases hHeld q k hq with ⟨rfl, rfl⟩ | hOld
      · rcases hHeld q' _ hq' with ⟨hp', -⟩ | hOld'
        · exact hp'.symm
        · exact absurd hOld' (hUnheld q')
      · rcases hHeld q' k hq' with ⟨-, rfl⟩ | hOld'
        · exact absurd hOld (hUnheld q)
        · exact h.held_once q q' k hOld hOld'
    placed := h.placed_setProc hPlaced }

theorem HashInv.unheld_setProc (hHolds : (s.procs p).holds = some n)
    (hNone : proc.holds = none) (q : Nat) : ((s.setProc p proc).procs q).holds ≠ some n := by
  intro hq
  rcases holds_of_setProc hq with ⟨-, hNow⟩ | ⟨hOther, hOld⟩
  · cases hNone.symm.trans hNow
  · exact hOther (h.held_once q p n hOld hHolds)

end SetProc

/-- The words of one bitmap page are replaced: the bits of that page are the new ones. -/
theorem HashInv.bitOf_update (h : HashInv s) (hi : i < s.metap.nmaps) (words : Words)
    (hn : n < 32768 * s.metap.nmaps) :
    bitOf { s with bitmaps := update s.bitmaps (s.metap.mapp i) words } n =
      if n / 32768 = i then isSet words (n % 32768) else bitOf s n := by
  unfold bitOf
  split
  · rename_i hPage
    simp only [hPage, update_self]
  · rename_i hPage
    have hOther : s.metap.mapp (n / 32768) ≠ s.metap.mapp i := fun hEq =>
      hPage (h.mapp_injective (by omega) hi hEq)
    simp only [update_of_ne hOther]

/-- The bitmaps change in one bit, at the place that `n` has there. -/
theorem HashInv.bitOf_bit (h : HashInv s) (hn : n < 32768 * s.metap.nmaps) {words : Words}
    {b : Bool} (hWords : ∀ k, isSet words k = if k = n % 32768 then b
      else isSet (s.bitmaps (s.metap.mapp (n / 32768))) k) {k : Nat}
    (hk : k < 32768 * s.metap.nmaps) :
    bitOf { s with bitmaps := update s.bitmaps (s.metap.mapp (n / 32768)) words } k =
      if k = n then b else bitOf s k := by
  rw [h.bitOf_update (by omega) words hk]
  by_cases hSame : k = n
  · rw [hSame, if_pos rfl, if_pos rfl, hWords, if_pos rfl]
  · rw [if_neg hSame]
    split
    · rename_i hPage
      rw [hWords, if_neg (by omega), bitOf, hPage]
    · rfl

end PgTuning.Hash
