import PgTuning.Nodes.BitmapUnion

/-!
# The intersection of TID bitmaps

`tbm_intersect` replaces every entry of the first bitmap by what `tbm_intersect_page`
makes of it, or removes it. No entry is created, so chunks keep to their own pages
and an exact page does not become lossy.
-/

namespace PgTuning.Tidbitmap

open PgTuning.Lib List Bool Option TIDBitmap BitVec

variable {a b t : TIDBitmap} {S T B : Set (BlockNumber × OffsetNumber)}
  {scan : TIDBitmap → List BlockNumber} {e : PagetableEntry}

/-- What is left of an entry. -/
def meet (b : TIDBitmap) (e : PagetableEntry) : Option PagetableEntry :=
  if (TIDBitmap.tbmIntersectPage e b).1 then none else some (TIDBitmap.tbmIntersectPage e b).2

/-- The bitmap says something about the page. -/
def hasPage (b : TIDBitmap) (q : BlockNumber) : Bool :=
  isLossy b.lookup q || isExact b.lookup q

theorem hasPage_eq_false {q : BlockNumber} (h : hasPage b q = false)
    (hB : OverApproximates b B) : onPage B q = ∅ := by
  rw [hasPage, or_eq_false_iff] at h
  have hPage : Approx (pageOf b.lookup q) (onPage B q) := hB q
  unfold pageOf at hPage
  rw [h.1] at hPage
  cases hFind : b.lookup q with
  | none =>
    rw [hFind] at hPage
    exact hPage
  | some e =>
    have hChunk : e.ischunk := by simpa [isExact, hFind] using h.2
    simp only [hFind, hChunk] at hPage
    exact hPage

/-! ## One entry -/

theorem getLsbD_clear (drop : Nat → Bool) (ks : List Nat) (hks : ∀ k ∈ ks, k < nbits) :
    ∀ (w : BitVec nbits) (i : Nat),
      (ks.foldl (fun neww k => if drop k then neww &&& ~~~twoPow nbits k else neww) w
        ).getLsbD i = (w.getLsbD i && !(decide (i ∈ ks) && drop i)) := by
  induction ks with
  | nil => simp
  | cons k ks ih =>
    intro w i
    rw [foldl_cons, ih fun k' hk' => hks k' (mem_cons_of_mem k hk')]
    have hFirst : (if drop k then w &&& ~~~twoPow nbits k else w).getLsbD i =
        (w.getLsbD i && !(decide (i = k) && drop i)) := by
      by_cases hi : i < nbits
      · by_cases hEq : i = k
        · subst hEq
          cases hDrop : drop i <;> simp [hi]
        · cases hDrop : drop k <;> simp [hi, hEq]
      · rw [getLsbD_of_ge _ i (by omega), getLsbD_of_ge _ i (by omega)]
        simp
    rw [hFirst]
    by_cases hEq : i = k
    · subst hEq
      cases drop i <;> simp
    · simp [hEq]

theorem intersectPage_chunk (hb : Inv b) (hChunk : e.ischunk) :
    ∃ e', tbmIntersectPage e b = (e'.words == 0, e') ∧ e'.ischunk ∧
      e'.blockno = e.blockno ∧
      ∀ i, e'.words.getLsbD i = (e.words.getLsbD i && hasPage b (e.blockno + i)) := by
  unfold tbmIntersectPage
  rw [if_pos hChunk]
  refine ⟨{ e with words := _ }, rfl, hChunk, rfl, fun i => ?_⟩
  have hDrop : ∀ pg, (!b.tbmPageIsLossy pg && (b.tbmFindPageentry pg).isNone) = !hasPage b pg := by
    intro pg
    rw [hb.pageIsLossy, hb.findPageentry, hasPage, isExact]
    cases hFind : b.lookup pg with
    | none => simp
    | some e => cases hChunk : e.ischunk <;> simp [hChunk]
  simp only [hDrop]
  have hBits : ∀ k ∈ bitsOf e.words, k < nbits := by
    intro k hk
    rw [bitsOf, mem_filter, mem_range] at hk
    exact hk.1
  rw [getLsbD_clear (fun k => !hasPage b (e.blockno + k)) _ hBits]
  have hMem : decide (i ∈ bitsOf e.words) = e.words.getLsbD i := by
    rw [Bool.eq_iff_iff, decide_eq_true_iff]
    exact mem_bitsOf
  rw [hMem]
  cases e.words.getLsbD i <;> simp

theorem ischunk_intersectPage (e : PagetableEntry) (b : TIDBitmap) :
    (tbmIntersectPage e b).2.ischunk = e.ischunk ∧
      (tbmIntersectPage e b).2.blockno = e.blockno := by
  unfold tbmIntersectPage
  split
  · exact ⟨rfl, rfl⟩
  · split
    · exact ⟨rfl, rfl⟩
    · split <;> exact ⟨rfl, rfl⟩

theorem ischunk_of_meet {e' : PagetableEntry} (h : meet b e = some e') :
    e'.ischunk = e.ischunk ∧ e'.blockno = e.blockno := by
  unfold meet at h
  split at h
  · cases h
  · injection h with h
    rw [← h]
    exact ischunk_intersectPage e b

/-- What a page of an exact entry over-approximates afterwards. -/
theorem approx_meet (hb : Inv b) (hB : OverApproximates b B)
    (hExact : e.ischunk = false) {S : Set Nat} (hS : Approx (.exact e.recheck e.words) S) :
    match meet b e with
    | some e' => Approx (.exact e'.recheck e'.words) (S ∩ onPage B e.blockno)
    | none => S ∩ onPage B e.blockno = ∅ := by
  have hPage : Approx (pageOf b.lookup e.blockno) (onPage B e.blockno) := hB e.blockno
  unfold meet tbmIntersectPage
  simp only [hExact, hb.pageIsLossy, hb.findPageentry]
  cases hLossy : isLossy b.lookup e.blockno with
  | true =>
    refine ⟨fun o ho => hS.1 o ho.1, fun hRecheck => ?_⟩
    cases hRecheck
  | false =>
    simp only [pageOf, hLossy, false_eq_true, if_false] at hPage ⊢
    cases hFind : b.lookup e.blockno with
    | none =>
      rw [hFind] at hPage
      simp only [filter_none, if_true]
      rw [show onPage B e.blockno = ∅ from hPage, Set.inter_empty]
    | some e₂ =>
      rw [hFind] at hPage
      cases hChunk : e₂.ischunk with
      | true =>
        simp only [hChunk] at hPage
        simp only [Option.filter, hChunk, Bool.not_true, false_eq_true, if_false, if_true]
        rw [show onPage B e.blockno = ∅ from hPage, Set.inter_empty]
      | false =>
        simp only [hChunk] at hPage
        have hBoth := hS.inter hPage
        simp only [Option.filter, hChunk, Bool.not_false, if_true]
        cases hZero : e.words &&& e₂.words == 0 with
        | true =>
          rw [beq_iff_eq] at hZero
          rw [hZero] at hBoth
          refine Set.eq_empty_of_forall_notMem fun o ho => ?_
          have hBit := (hBoth.1 o ho).2
          simp at hBit
        | false => exact hBoth

/-! ## All entries -/

section Meets

variable {find find' : BlockNumber → Option PagetableEntry}

/-- Every entry is replaced by what is left of it. -/
def Meets (b : TIDBitmap) (find find' : BlockNumber → Option PagetableEntry) : Prop :=
  ∀ k, find' k = (find k).bind (meet b)

variable (hb : Inv b) (hKey : ∀ k e, find k = some e → e.blockno = k) (h : Meets b find find')
include hb hKey h

theorem Meets.isLossy (q : BlockNumber) :
    isLossy find' q = (isLossy find q && hasPage b q) := by
  unfold Tidbitmap.isLossy
  rw [h]
  cases hFind : find (chunkOf q) with
  | none => rfl
  | some e =>
    rw [bind_some]
    cases hChunk : e.ischunk with
    | false =>
      cases hMeet : meet b e with
      | none => simp [hChunk]
      | some e' => simp [(ischunk_of_meet hMeet).1, hChunk]
    | true =>
      obtain ⟨e', hPage, hChunk', -, hBits⟩ := intersectPage_chunk hb hChunk
      have hBit := hBits (q % pagesPerChunk)
      rw [hKey _ e hFind, chunkOf_add_mod] at hBit
      unfold meet
      rw [hPage]
      cases hZero : e'.words == 0 with
      | false => simp [hChunk, hChunk', hBit]
      | true =>
        rw [beq_iff_eq] at hZero
        rw [hZero] at hBit
        simpa [hChunk] using hBit

theorem Meets.regular (hReg : Regular find) : Regular find' := by
  constructor
  · intro k e' he' hChunk
    rw [h, bind_eq_some_iff] at he'
    obtain ⟨e, he, hMeet⟩ := he'
    have hOld : e.ischunk := by
      rw [← (ischunk_of_meet hMeet).1]
      exact hChunk
    obtain ⟨hMod, hBelow⟩ := hReg.chunk k e he hOld
    refine ⟨hMod, fun i hi => hBelow i ?_⟩
    obtain ⟨e₂, hPage, -, -, hBits⟩ := intersectPage_chunk hb hOld
    have hEq : e₂ = e' := by
      unfold meet at hMeet
      rw [hPage] at hMeet
      split at hMeet
      · cases hMeet
      · injection hMeet
    rw [← hEq, hBits, and_eq_true] at hi
    exact hi.1
  · intro k e' he' hExact
    rw [h.isLossy hb hKey]
    rw [h, bind_eq_some_iff] at he'
    obtain ⟨e, he, hMeet⟩ := he'
    rw [hReg.disjoint k e he (by rw [← (ischunk_of_meet hMeet).1]; exact hExact)]
    rfl

theorem Meets.approx (hReg : Regular find) (hB : OverApproximates b B) {q : BlockNumber} {S : Set Nat} (hS : Approx (pageOf find q) S) :
    Approx (pageOf find' q) (S ∩ onPage B q) := by
  -- An entry under `q` that is a chunk says nothing about `q` unless `q` is lossy.
  have hRest : ∀ e, find q = some e → e.ischunk → Tidbitmap.isLossy find' q = false →
      pageOf find' q = .absent := by
    intro e he hChunk hLossy
    unfold pageOf
    rw [hLossy, h, he, bind_some]
    cases hMeet : meet b e with
    | none => rfl
    | some e' => simp [(ischunk_of_meet hMeet).1, hChunk]
  have hNone : find q = none → Tidbitmap.isLossy find' q = false → pageOf find' q = .absent := by
    intro he hLossy
    unfold pageOf
    rw [hLossy, h, he]
    rfl
  have hFlag := h.isLossy hb hKey q
  cases hLossy : Tidbitmap.isLossy find q with
  | true =>
    rw [hLossy, Bool.true_and] at hFlag
    cases hHas : hasPage b q with
    | true =>
      unfold pageOf
      rw [hFlag, hHas]
      trivial
    | false =>
      have hAbsent : pageOf find' q = .absent := by
        cases hFind : find q with
        | none => exact hNone hFind (hFlag.trans hHas)
        | some e =>
          refine hRest e hFind ?_ (hFlag.trans hHas)
          by_contra hExact
          rw [hReg.disjoint q e hFind (by simpa using hExact)] at hLossy
          cases hLossy
      rw [hAbsent, hasPage_eq_false hHas hB, Set.inter_empty]
      rfl
  | false =>
    rw [hLossy, Bool.false_and] at hFlag
    unfold pageOf at hS
    rw [hLossy] at hS
    cases hFind : find q with
    | none =>
      rw [hFind] at hS
      rw [hNone hFind hFlag, show S = ∅ from hS, Set.empty_inter]
      rfl
    | some e =>
      rw [hFind] at hS
      cases hChunk : e.ischunk with
      | true =>
        simp only [hChunk] at hS
        rw [hRest e hFind hChunk hFlag, show S = ∅ from hS, Set.empty_inter]
        rfl
      | false =>
        simp only [hChunk] at hS
        have hMeet := approx_meet hb hB hChunk hS
        rw [hKey q e hFind] at hMeet
        unfold pageOf
        rw [hFlag, h, hFind, bind_some]
        cases hLeft : meet b e with
        | none =>
          rw [hLeft] at hMeet
          exact hMeet
        | some e' =>
          rw [hLeft] at hMeet
          simp only [(ischunk_of_meet hLeft).1, hChunk]
          exact hMeet

end Meets

/-! ## The loop -/

theorem Stored.intersectStep (b : TIDBitmap) (h : Stored a) (k : BlockNumber) :
    Stored (TIDBitmap.intersectStep b a k) ∧
      (TIDBitmap.intersectStep b a k).maxentries = a.maxentries ∧
      ∀ k', (TIDBitmap.intersectStep b a k).pagetable.get? k' =
        if k' = k then (a.pagetable.get? k).bind (meet b) else a.pagetable.get? k' := by
  unfold TIDBitmap.intersectStep
  cases hGet : a.pagetable.get? k with
  | none =>
    refine ⟨h, rfl, fun k' => ?_⟩
    by_cases hk : k' = k
    · rw [if_pos hk, hk, hGet]
      rfl
    · rw [if_neg hk]
  | some e =>
    have hChunk := (ischunk_intersectPage e b).1
    simp only [bind_some, meet]
    split
    · have hOld := counts_cons.mp (h.counts.perm (Table.erase_perm hGet))
      refine ⟨⟨h.status, ?_⟩, rfl, Table.get?_erase a.pagetable k⟩
      rw [← hChunk] at hOld
      exact hOld
    · obtain ⟨hStored, hFind⟩ := h.updateEntry k (fun _ => (tbmIntersectPage e b).2.words)
        (fun _ => (tbmIntersectPage e b).2.recheck)
      refine ⟨hStored, maxentries_updateEntry _ _ _ _, fun k' => ?_⟩
      rw [hFind]
      by_cases hk : k' = k
      · rw [if_pos hk, if_pos hk, hk, hGet]
        obtain ⟨hChunk, hBlockno⟩ := ischunk_intersectPage e b
        rw [map_some, ← hChunk, ← hBlockno]
      · rw [if_neg hk, if_neg hk]

theorem Stored.intersectLoop (b : TIDBitmap) (ks : List BlockNumber) (hks : ks.Nodup) :
    ∀ {a : TIDBitmap}, Stored a →
      Stored (ks.foldl (TIDBitmap.intersectStep b) a) ∧
      (ks.foldl (TIDBitmap.intersectStep b) a).maxentries = a.maxentries ∧
      ∀ k, (ks.foldl (TIDBitmap.intersectStep b) a).pagetable.get? k =
        if k ∈ ks then (a.pagetable.get? k).bind (meet b) else a.pagetable.get? k := by
  induction ks with
  | nil =>
    intro a h
    exact ⟨h, rfl, fun k => by simp⟩
  | cons k₀ ks ih =>
    intro a h
    obtain ⟨hNot, hRest⟩ := nodup_cons.mp hks
    obtain ⟨h₁, hLimit₁, hFind₁⟩ := h.intersectStep b k₀
    obtain ⟨h₂, hLimit₂, hFind₂⟩ := ih hRest h₁
    refine ⟨h₂, hLimit₂.trans hLimit₁, fun k => ?_⟩
    rw [foldl_cons, hFind₂, hFind₁]
    by_cases hk : k = k₀
    · subst hk
      simp [hNot]
    · simp [hk]

/-- `tbm_intersect`: the bitmap keeps the invariant and its entries are replaced. -/
theorem Inv.intersectEntries (hScan : Scans scan) (ha : Inv a) (hb : Inv b) :
    Inv (a.tbmIntersect scan b) ∧ Meets b a.lookup (a.tbmIntersect scan b).lookup := by
  have hKey : ∀ k e, a.lookup k = some e → e.blockno = k := fun k e he => blockno_of_lookup he
  have hLength := ha.counted.nentries
  unfold tbmIntersect
  split
  · next hZero =>
    refine ⟨ha, fun k => ?_⟩
    cases hFind : a.lookup k with
    | none => rfl
    | some e =>
      have hPos := length_pos_of_mem (mem_entries_of_lookup hFind)
      omega
  · next hNonzero =>
    cases hStatus : a.status with
    | empty =>
      simp only [entries, hStatus] at hLength
      exact absurd hLength hNonzero
    | onePage =>
      rw [if_pos rfl]
      obtain ⟨hExact, hLookup, hCounts⟩ := ha.onePage hStatus
      obtain ⟨hChunk, hBlockno⟩ := ischunk_intersectPage a.entry1 b
      simp only
      split
      · next hDelete =>
        have hMeets : Meets b a.lookup fun _ => none := by
          intro k
          rw [hLookup]
          by_cases hk : a.entry1.blockno = k
          · simp [hk, meet, hDelete]
          · simp [hk]
        exact ⟨⟨hMeets.regular hb hKey ha.regular, hCounts, fun _ e he => absurd he not_mem_nil,
          ha.limit⟩, hMeets⟩
      · next hKeep =>
        generalize ha' : ({ a with
          status := .onePage
          entry1 := (tbmIntersectPage a.entry1 b).2 } : TIDBitmap) = a'
        have hStatus' : a'.status = .onePage := by rw [← ha']
        have hEntries : a'.entries = [(tbmIntersectPage a.entry1 b).2] := by
          rw [entries, ← ha']
        have hMeets : Meets b a.lookup a'.lookup := by
          intro k
          rw [hLookup, TIDBitmap.lookup, ← ha']
          simp only [hBlockno]
          by_cases hk : a.entry1.blockno = k
          · simp [hk, meet, hKeep]
          · simp [hk]
        refine ⟨⟨hMeets.regular hb hKey ha.regular, ?_, fun _ e he => ?_, ?_⟩, hMeets⟩
        · rw [Counted, hEntries, counts_cons, hChunk, hExact, ← ha']
          exact hCounts
        · rw [hEntries, mem_singleton] at he
          rw [he, hChunk, hExact]
        · rw [← ha']
          exact ha.limit
    | hash =>
      rw [if_neg (by decide)]
      have hStored := ha.stored hStatus
      have hNodup : (scan a).Nodup := by
        rw [(hScan a).nodup_iff]
        exact a.pagetable.nodup_keys
      obtain ⟨h₁, hLimit, hFind⟩ := hStored.intersectLoop b (scan a) hNodup
      have hMeets : Meets b a.lookup ((scan a).foldl (TIDBitmap.intersectStep b) a).pagetable.get? := by
        intro k
        rw [hFind, lookup_of_hash hStatus]
        by_cases hk : k ∈ scan a
        · rw [if_pos hk]
        · rw [if_neg hk]
          cases hGet : a.pagetable.get? k with
          | none => rfl
          | some e => exact absurd (hScan.mem hGet) hk
      refine ⟨h₁.inv (hMeets.regular hb hKey ha.regular) (by rw [hLimit]; exact ha.limit), ?_⟩
      rw [lookup_of_hash h₁.status]
      exact hMeets

theorem Inv.intersect (hScan : Scans scan) (ha : Inv a)
    (hS : OverApproximates a S) (hb : Inv b) (hB : OverApproximates b B) :
    Inv (a.tbmIntersect scan b) ∧ OverApproximates (a.tbmIntersect scan b) (S ∩ B) := by
  obtain ⟨hInv, hMeets⟩ := ha.intersectEntries hScan hb
  exact ⟨hInv, fun q => hMeets.approx hb (fun k e he => blockno_of_lookup he) ha.regular hB (hS q)⟩

end PgTuning.Tidbitmap
