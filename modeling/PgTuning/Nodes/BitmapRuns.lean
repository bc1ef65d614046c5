import PgTuning.Nodes.BitmapIntersect
import PgTuning.Nodes.BitmapIterate

/-!
# Runs of TID bitmap operations

A bitmap is built from empty ones by adding tuples and pages, by unions and by
intersections, with pages becoming lossy at any point. `Built` follows the true set
of tuples along; whatever the order of the steps, the bitmap over-approximates it and
an iteration over the bitmap reports it.
-/

namespace PgTuning.Tidbitmap

open PgTuning.Lib List

/-- A bitmap that some operations have built, and the true set of its tuples. Every
operation may scan the hash tables in an order of its own. -/
inductive Built : TIDBitmap → Set (BlockNumber × OffsetNumber) → Prop
  | create (maxbytes : Nat) : Built (tbmCreate maxbytes) ∅
  /-- The index reports `tids`; those of `T` are true, and all of them without recheck. -/
  | addTuples {t t' : TIDBitmap} {S T : Set (BlockNumber × OffsetNumber)}
      {scan : TIDBitmap → List BlockNumber} (hScan : Scans scan)
      {tids : List (BlockNumber × OffsetNumber)} {recheck : Bool} (h : Built t S)
      (hAdd : t.tbmAddTuples scan tids recheck = some t') (hSub : ∀ x ∈ T, x ∈ tids)
      (hAll : recheck = false → ∀ x ∈ tids, x ∈ T) : Built t' (S ∪ T)
  | addPage {t : TIDBitmap} {S T : Set (BlockNumber × OffsetNumber)}
      {scan : TIDBitmap → List BlockNumber} (hScan : Scans scan) {pageno : BlockNumber}
      (h : Built t S) (hT : ∀ x ∈ T, x.1 = pageno) : Built (t.tbmAddPage scan pageno) (S ∪ T)
  | union {a b : TIDBitmap} {S T : Set (BlockNumber × OffsetNumber)}
      {scan : TIDBitmap → List BlockNumber} (hScan : Scans scan) (ha : Built a S)
      (hb : Built b T) : Built (a.tbmUnion scan b) (S ∪ T)
  | intersect {a b : TIDBitmap} {S T : Set (BlockNumber × OffsetNumber)}
      {scan : TIDBitmap → List BlockNumber} (hScan : Scans scan) (ha : Built a S)
      (hb : Built b T) : Built (a.tbmIntersect scan b) (S ∩ T)
  | lossify {t : TIDBitmap} {S : Set (BlockNumber × OffsetNumber)}
      {scan : TIDBitmap → List BlockNumber} (hScan : Scans scan) (h : Built t S)
      (hHash : t.status = .hash) : Built (t.tbmLossify scan) S
  /-- Another limit for the number of entries. -/
  | limit {t : TIDBitmap} {S : Set (BlockNumber × OffsetNumber)} {maxentries : Int}
      (h : Built t S) (hLimit : 0 < maxentries) : Built { t with maxentries := maxentries } S

theorem inv_tbmCreate (maxbytes : Nat) :
    Inv (tbmCreate maxbytes) ∧ OverApproximates (tbmCreate maxbytes) ∅ := by
  refine ⟨⟨⟨fun k e he => ?_, fun k e he => ?_⟩, ⟨rfl, rfl, rfl⟩, fun _ e he => ?_, ?_⟩, fun q => rfl⟩
  · cases he
  · cases he
  · cases he
  · show 0 < max (min ((maxbytes : Int) / 80) 2147483646) 16
    omega

variable {t : TIDBitmap} {S : Set (BlockNumber × OffsetNumber)}

/-- The invariant and the over-approximation hold whatever was done. -/
theorem Built.inv (h : Built t S) : Inv t ∧ OverApproximates t S := by
  induction h with
  | create maxbytes => exact inv_tbmCreate maxbytes
  | addTuples _ _ hAdd hSub hAll ih => exact Inv.addTuples _ hAdd ih.1 ih.2 hSub hAll
  | addPage _ _ hT ih => exact ih.1.addPage _ ih.2 _ hT
  | union hScan _ _ iha ihb => exact iha.1.union hScan iha.2 ihb.1 ihb.2
  | intersect hScan _ _ iha ihb => exact iha.1.intersect hScan iha.2 ihb.1 ihb.2
  | lossify _ _ hHash ih =>
    obtain ⟨hInv, hCoarser⟩ := ih.1.lossify _ hHash
    exact ⟨hInv, ih.2.coarser hCoarser⟩
  | limit _ hLimit ih => exact ⟨ih.1.withLimit hLimit, ih.2⟩

/-- The bitmap has a page, exact or lossy. -/
def isStored (t : TIDBitmap) (q : BlockNumber) : Bool :=
  (t.tbmFindPageentry q).isSome || t.tbmPageIsLossy q

theorem Inv.isStored_iff (h : Inv t) (q : BlockNumber) :
    isStored t q ↔ ∃ x, report t q = some x := by
  unfold isStored report TIDBitmap.page pageOf
  rw [h.findPageentry, h.pageIsLossy]
  cases hLossy : isLossy t.lookup q with
  | true => simp
  | false =>
    cases hFind : t.lookup q with
    | none => simp
    | some e => cases hChunk : e.ischunk <;> simp [hChunk]

theorem blockno_report {q : BlockNumber} {x : TBMIterateResult}
    (h : report t q = some x) : x.blockno = q := by
  unfold report at h
  split at h
  · cases h
  · injection h with h
    rw [← h]
    rfl
  · injection h with h
    rw [← h]

/-- What the results of an iteration say about a set of tuples. -/
structure Reports (rs : List TBMIterateResult) (S : Set (BlockNumber × OffsetNumber)) : Prop where
  /-- Every tuple is on a reported page, and among its offsets unless the page is lossy. -/
  complete : ∀ q o, (q, o) ∈ S → ∃ x ∈ rs, x.blockno = q ∧ ∀ offs, x.offsets = some offs → o ∈ offs
  /-- A tuple that is reported without recheck is true. -/
  sound : ∀ x ∈ rs, x.recheck = false →
    ∃ offs, x.offsets = some offs ∧ ∀ o ∈ offs, (x.blockno, o) ∈ S

theorem OverApproximates.reports (h : OverApproximates t S) {rs : List TBMIterateResult}
    (hRs : ∀ x, x ∈ rs ↔ report t x.blockno = some x) : Reports rs S := by
  constructor
  · intro q o ho
    have hPage := h q
    have hMem : o ∈ onPage S q := ho
    have hReported : ∀ x, report t q = some x → x ∈ rs := by
      intro x hx
      rw [hRs, blockno_report hx]
      exact hx
    unfold report at hReported
    cases hInfo : t.page q with
    | absent =>
      rw [hInfo] at hPage
      rw [show onPage S q = ∅ from hPage] at hMem
      exact absurd hMem (Set.notMem_empty o)
    | lossy =>
      rw [hInfo] at hReported
      refine ⟨_, hReported _ rfl, rfl, fun offs hOffs => ?_⟩
      cases hOffs
    | exact recheck words =>
      rw [hInfo] at hPage hReported
      refine ⟨_, hReported _ rfl, rfl, fun offs hOffs => ?_⟩
      injection hOffs with hOffs
      obtain ⟨hPos, hBit⟩ := hPage.1 o hMem
      rw [← hOffs, mem_map]
      exact ⟨o - 1, mem_bitsOf.mpr hBit, Nat.sub_add_cancel hPos⟩
  · intro x hx hRecheck
    have hReport := (hRs x).mp hx
    have hPage := h x.blockno
    unfold report at hReport
    cases hInfo : t.page x.blockno with
    | absent => simp [hInfo] at hReport
    | lossy =>
      simp only [hInfo, Option.some.injEq] at hReport
      rw [← hReport] at hRecheck
      cases hRecheck
    | exact recheck words =>
      simp only [hInfo, Option.some.injEq] at hReport
      rw [hInfo] at hPage
      rw [← hReport] at hRecheck
      refine ⟨_, (congrArg TBMIterateResult.offsets hReport).symm, fun o ho => ?_⟩
      obtain ⟨k, hk, rfl⟩ := mem_map.mp ho
      exact hPage.2 hRecheck k (mem_bitsOf.mp hk)

/-- A bitmap for a set of tuples: whatever the scan order, an iteration returns the
stored pages in increasing order and reports the set; no page is both exact and lossy;
the counters are right. -/
structure Represents (t : TIDBitmap) (S : Set (BlockNumber × OffsetNumber)) : Prop where
  iterate : ∀ scan, Scans scan →
    ∃ rs, (∀ n, rs.length < n → tbmIterateAll (tbmBeginIterate scan t) n ⟨0, 0, 0⟩ = (rs, true)) ∧
      (rs.map TBMIterateResult.blockno).Pairwise (· < ·) ∧
      (∀ q, q ∈ rs.map TBMIterateResult.blockno ↔ isStored t q = true) ∧ Reports rs S
  lengths : ∀ scan, Scans scan → t.npages = (tbmBeginIterate scan t).spages.length ∧
    t.nchunks = (tbmBeginIterate scan t).schunks.length
  disjoint : ∀ q, (t.tbmFindPageentry q).isSome = true → t.tbmPageIsLossy q = false
  counted : Counted t

/-- No sequence of operations loses a tuple. -/
theorem built_represents {t : TIDBitmap} {S : Set (BlockNumber × OffsetNumber)} (h : Built t S) :
    Represents t S := by
  obtain ⟨hInv, hS⟩ := h.inv
  refine ⟨fun scan hScan => ?_, fun scan hScan => hInv.lists_length hScan, fun q hq => ?_,
    hInv.counted⟩
  · obtain ⟨rs, hAll, hSorted, hRs⟩ := hInv.iterate hScan
    refine ⟨rs, hAll, hSorted, fun q => ?_, hS.reports hRs⟩
    rw [hInv.isStored_iff, mem_map]
    constructor
    · rintro ⟨x, hx, rfl⟩
      exact ⟨x, (hRs x).mp hx⟩
    · rintro ⟨x, hx⟩
      have hKey := blockno_report hx
      exact ⟨x, (hRs x).mpr (by rw [hKey]; exact hx), hKey⟩
  · rw [hInv.pageIsLossy]
    rw [hInv.findPageentry] at hq
    cases hFind : t.lookup q with
    | none =>
      rw [hFind] at hq
      cases hq
    | some e =>
      refine hInv.regular.disjoint q e hFind ?_
      by_contra hChunk
      simp [hFind, hChunk] at hq

def tableOrder (t : TIDBitmap) : List BlockNumber := t.pagetable.rows.map PagetableEntry.blockno

theorem scans_tableOrder : Scans tableOrder := fun _ => .refl _

def threePages : TIDBitmap :=
  ((tbmCreate 0).tbmAddTuples tableOrder [(255, 1), (257, 2), (258, 4)] false).getD (tbmCreate 0)

/-- To be rechecked: the tuple 3 of page 257 is not a true one. -/
def twoPages : TIDBitmap :=
  ((tbmCreate 0).tbmAddTuples tableOrder [(255, 1), (257, 2), (257, 3)] true).getD (tbmCreate 0)

def onBoth : TIDBitmap := (threePages.tbmLossify tableOrder).tbmIntersect tableOrder twoPages

/-- Page 255 became lossy, and the recheck of the second bitmap stays. -/
theorem built_represents_onBoth :
    Represents onBoth ((∅ ∪ {(255, 1), (257, 2), (258, 4)}) ∩ (∅ ∪ {(255, 1), (257, 2)})) ∧
      ((tbmIterateAll (tbmBeginIterate tableOrder onBoth) 3 ⟨0, 0, 0⟩).1.map fun r =>
        (r.blockno, r.offsets, r.recheck)) = [(255, none, true), (257, some [2], true)] := by
  have hAdd : (tbmCreate 0).tbmAddTuples tableOrder [(255, 1), (257, 2), (258, 4)] false =
    some threePages := rfl
  have hAdd' : (tbmCreate 0).tbmAddTuples tableOrder [(255, 1), (257, 2), (257, 3)] true =
    some twoPages := rfl
  have hThree : Built threePages (∅ ∪ {(255, 1), (257, 2), (258, 4)}) :=
    .addTuples scans_tableOrder (.create 0) hAdd (by simp) (by simp)
  have hTwo : Built twoPages (∅ ∪ {(255, 1), (257, 2)}) :=
    .addTuples scans_tableOrder (.create 0) hAdd' (by simp) (by simp)
  have hLossy := hThree.lossify scans_tableOrder rfl
  exact ⟨built_represents (.intersect scans_tableOrder hLossy hTwo), by decide +kernel⟩

end PgTuning.Tidbitmap
