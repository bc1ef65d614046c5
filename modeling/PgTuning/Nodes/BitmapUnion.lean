import PgTuning.Nodes.BitmapApprox

/-!
# The union of TID bitmaps

`tbm_union` takes over the entries of the second bitmap one after the other. Every
tuple of its set is on a page that one of its entries covers, so once all entries are
taken over the first bitmap approximates the union of the sets.
-/

namespace PgTuning.Tidbitmap

open PgTuning.Lib List Set TIDBitmap

variable {a b t : TIDBitmap} {S T B : Set (BlockNumber × OffsetNumber)}

/-- An entry says something about a page. -/
def covers (e : PagetableEntry) (q : BlockNumber) : Prop :=
  if e.ischunk then chunkOf q = e.blockno ∧ e.words.getLsbD (q % pagesPerChunk) = true
  else q = e.blockno

theorem OverApproximates.covered (h : OverApproximates b B) {x : BlockNumber × OffsetNumber}
    (hx : x ∈ B) : ∃ k e, b.lookup k = some e ∧ covers e x.1 := by
  obtain ⟨q, o⟩ := x
  have hPage : Approx (pageOf b.lookup q) (onPage B q) := h q
  have hMem : o ∈ onPage B q := hx
  unfold pageOf at hPage
  split at hPage
  · next hLossy =>
    unfold isLossy at hLossy
    cases hFind : b.lookup (chunkOf q) with
    | none =>
      rw [hFind] at hLossy
      cases hLossy
    | some e =>
      simp only [hFind, Bool.and_eq_true] at hLossy
      refine ⟨_, e, hFind, ?_⟩
      unfold covers
      rw [if_pos hLossy.1]
      exact ⟨(blockno_of_lookup hFind).symm, hLossy.2⟩
  · cases hFind : b.lookup q with
    | none =>
      rw [hFind] at hPage
      rw [show onPage B q = ∅ from hPage] at hMem
      exact absurd hMem (notMem_empty o)
    | some e =>
      simp only [hFind] at hPage
      split at hPage
      · rw [show onPage B q = ∅ from hPage] at hMem
        exact absurd hMem (notMem_empty o)
      · next hExact =>
        refine ⟨q, e, hFind, ?_⟩
        unfold covers
        rw [if_neg hExact]
        exact (blockno_of_lookup hFind).symm

theorem Inv.markAll (c : BlockNumber) (ks : List Nat) :
    ∀ {a : TIDBitmap} {S T : Set (BlockNumber × OffsetNumber)}, Inv a → OverApproximates a S →
      (∀ x ∈ T, ∃ k ∈ ks, x.1 = c + k) →
      Inv (ks.foldl (fun a k => a.tbmMarkPageLossy (c + k)) a) ∧
        OverApproximates (ks.foldl (fun a k => a.tbmMarkPageLossy (c + k)) a) (S ∪ T) := by
  induction ks with
  | nil =>
    intro a S T h hS hT
    have hEmpty : T = ∅ := eq_empty_of_forall_notMem fun x hx => by simpa using hT x hx
    rw [hEmpty, union_empty]
    exact ⟨h, hS⟩
  | cons k ks ih =>
    intro a S T h hS hT
    obtain ⟨h₁, hS₁⟩ := h.markSet hS (c + k) (T := T ∩ {x | x.1 = c + k}) fun x hx => hx.2
    have hRest := ih (T := T ∩ {x | ∃ k ∈ ks, x.1 = c + k}) h₁ hS₁ fun x hx => hx.2
    have hSplit : T ∩ {x | x.1 = c + k} ∪ T ∩ {x | ∃ k ∈ ks, x.1 = c + k} = T := by
      rw [← inter_union_distrib_left, inter_eq_left]
      intro x hx
      obtain ⟨k', hk', hEq⟩ := hT x hx
      rcases mem_cons.mp hk' with hk' | hk'
      · exact .inl (by rw [← hk']; exact hEq)
      · exact .inr ⟨k', hk', hEq⟩
    rwa [union_assoc, hSplit] at hRest

variable {k : BlockNumber} {e : PagetableEntry} (scan : TIDBitmap → List BlockNumber)

/-- `tbm_union_page`: the tuples on the pages of the entry are added. -/
theorem Inv.unionPage (ha : Inv a) (hS : OverApproximates a S) (hb : Inv b)
    (hB : OverApproximates b B) (he : b.lookup k = some e) :
    Inv (a.tbmUnionPage scan e) ∧
      OverApproximates (a.tbmUnionPage scan e) (S ∪ B ∩ {x | covers e x.1}) := by
  have hKey := blockno_of_lookup he
  unfold tbmUnionPage
  cases hChunk : e.ischunk with
  | true =>
    have hCovered : ∀ x ∈ B ∩ {x | covers e x.1}, ∃ i ∈ bitsOf e.words, x.1 = e.blockno + i := by
      rintro ⟨q, o⟩ ⟨_, hq⟩
      simp only [mem_ofPred_eq, covers, hChunk, if_true] at hq
      refine ⟨q % pagesPerChunk, mem_bitsOf.mpr hq.2, ?_⟩
      rw [← hq.1]
      exact (chunkOf_add_mod q).symm
    obtain ⟨h₁, hS₁⟩ := Inv.markAll e.blockno (bitsOf e.words) ha hS hCovered
    obtain ⟨h₂, hCoarser⟩ := h₁.limitMemory scan
    exact ⟨h₂, hS₁.coarser hCoarser⟩
  | false =>
    have hOn : ∀ x ∈ B ∩ {x | covers e x.1}, x.1 = e.blockno := by
      rintro x ⟨_, hx⟩
      simpa [covers, hChunk] using hx
    simp only [Bool.false_eq_true, if_false, ha.pageIsLossy]
    split
    · next hLossy =>
      have hPage : a.page e.blockno = .lossy := by simp [page, pageOf, hLossy]
      exact ⟨ha, OverApproximates.of_lossy hPage (fun q _ => hS q) hOn⟩
    · next hFree =>
      have hWords : Approx (.exact e.recheck e.words) (onPage (B ∩ {x | covers e x.1}) e.blockno) := by
        have hPage := hB k
        have hSame : onPage (B ∩ {x | covers e x.1}) e.blockno = onPage B k := by
          ext o
          simp [onPage, covers, hChunk, hKey]
        rw [hSame]
        simpa [page, pageOf, hb.regular.disjoint k e he hChunk, he, hChunk] using hPage
      refine ha.cover scan (by simpa using hFree) (fun e' he' => ?_) (fun e' he' => ?_) hOn hWords hS
      · simp [he']
      · simp [he']

/-- The tuples on the pages that some entries cover. -/
def takenOver (b : TIDBitmap) (ks : List BlockNumber) : Set (BlockNumber × OffsetNumber) :=
  {x | ∃ k ∈ ks, ∃ e, b.lookup k = some e ∧ covers e x.1}

theorem takenOver_cons (he : b.lookup k = some e)
    (ks : List BlockNumber) : takenOver b (k :: ks) = {x | covers e x.1} ∪ takenOver b ks := by
  ext x
  constructor
  · rintro ⟨k', hk', e', he', hx⟩
    rcases mem_cons.mp hk' with hk' | hk'
    · rw [hk', he] at he'
      injection he' with he'
      exact .inl (by rw [he']; exact hx)
    · exact .inr ⟨k', hk', e', he', hx⟩
  · rintro (hx | ⟨k', hk', hx⟩)
    · exact ⟨k, mem_cons_self, e, he, hx⟩
    · exact ⟨k', mem_cons_of_mem k hk', hx⟩

theorem takenOver_cons_none (he : b.lookup k = none) (ks : List BlockNumber) :
    takenOver b (k :: ks) = takenOver b ks := by
  ext x
  constructor
  · rintro ⟨k', hk', e', he', hx⟩
    rcases mem_cons.mp hk' with hk' | hk'
    · rw [hk', he] at he'
      cases he'
    · exact ⟨k', hk', e', he', hx⟩
  · rintro ⟨k', hk', hx⟩
    exact ⟨k', mem_cons_of_mem k hk', hx⟩

theorem Inv.unionLoop (hb : Inv b) (hHash : b.status = .hash)
    (hB : OverApproximates b B) (ks : List BlockNumber) :
    ∀ {a : TIDBitmap} {S : Set (BlockNumber × OffsetNumber)}, Inv a → OverApproximates a S →
      Inv (ks.foldl (unionStep scan b) a) ∧
        OverApproximates (ks.foldl (unionStep scan b) a) (S ∪ B ∩ takenOver b ks) := by
  induction ks with
  | nil =>
    intro a S ha hS
    have hEmpty : takenOver b [] = ∅ :=
      eq_empty_of_forall_notMem fun x ⟨k, hk, _⟩ => absurd hk not_mem_nil
    rw [hEmpty, inter_empty, union_empty]
    exact ⟨ha, hS⟩
  | cons k ks ih =>
    intro a S ha hS
    rw [foldl_cons]
    have hLookup : b.lookup k = b.pagetable.get? k := by rw [lookup_of_hash hHash]
    cases hGet : b.pagetable.get? k with
    | none =>
      rw [takenOver_cons_none (hLookup.trans hGet)]
      simp only [unionStep, hGet]
      exact ih ha hS
    | some e =>
      have he := hLookup.trans hGet
      simp only [unionStep, hGet]
      obtain ⟨h₁, hS₁⟩ := Inv.unionPage scan ha hS hb hB he
      have hRest := ih h₁ hS₁
      rw [takenOver_cons he, inter_union_distrib_left, ← union_assoc]
      exact hRest

/-- A scan of the hash table meets every entry once. -/
def Scans (scan : TIDBitmap → List BlockNumber) : Prop :=
  ∀ t, (scan t).Perm (t.pagetable.rows.map PagetableEntry.blockno)

variable {scan : TIDBitmap → List BlockNumber}

theorem Scans.mem (h : Scans scan)
    (he : t.pagetable.get? k = some e) : k ∈ scan t := by
  obtain ⟨hMem, hKey⟩ := Table.get?_eq_some.mp he
  exact (h t).mem_iff.mpr (mem_map.mpr ⟨e, hMem, hKey⟩)

theorem Inv.union (hScan : Scans scan) (ha : Inv a)
    (hS : OverApproximates a S) (hb : Inv b) (hB : OverApproximates b B) :
    Inv (a.tbmUnion scan b) ∧ OverApproximates (a.tbmUnion scan b) (S ∪ B) := by
  have hLength := hb.counted.nentries
  unfold tbmUnion
  split
  · next hZero =>
    have hEmpty : B = ∅ := by
      refine eq_empty_of_forall_notMem fun x hx => ?_
      obtain ⟨k, e, he, _⟩ := hB.covered hx
      have hPos := length_pos_of_mem (mem_entries_of_lookup he)
      omega
    rw [hEmpty, union_empty]
    exact ⟨ha, hS⟩
  · next hNonzero =>
    split
    · next hStatus =>
      obtain ⟨-, hLookup, -⟩ := hb.onePage hStatus
      have hAll : B ∩ {x | covers b.entry1 x.1} = B := by
        rw [inter_eq_left]
        intro x hx
        obtain ⟨k, e, he, hCovers⟩ := hB.covered hx
        rw [hLookup] at he
        split at he
        · injection he with he
          rw [← he] at hCovers
          exact hCovers
        · cases he
      have hPage := Inv.unionPage scan ha hS hb hB ((hLookup b.entry1.blockno).trans (if_pos rfl))
      rwa [hAll] at hPage
    · next hStatus =>
      have hHash : b.status = .hash := by
        cases hCase : b.status with
        | hash => rfl
        | onePage => exact absurd hCase hStatus
        | empty =>
          simp only [entries, hCase] at hLength
          exact absurd hLength hNonzero
      have hAll : B ∩ takenOver b (scan b) = B := by
        rw [inter_eq_left]
        intro x hx
        obtain ⟨k, e, he, hCovers⟩ := hB.covered hx
        have hGet : b.pagetable.get? k = some e := by
          rw [← lookup_of_hash hHash]
          exact he
        exact ⟨k, hScan.mem hGet, e, he, hCovers⟩
      have hLoop := Inv.unionLoop scan hb hHash hB (scan b) ha hS
      rwa [hAll] at hLoop

end PgTuning.Tidbitmap
