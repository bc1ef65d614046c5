import PgTuning.Nodes.BitmapPages

/-!
# TID bitmaps never lose a tuple

What a bitmap says about a page over-approximates a set of offsets when every tuple
of the set is reported and, unless the page has to be rechecked, nothing else is
(`Approx`). Losing precision keeps the approximation; adding a tuple, the union and
the intersection carry it over to the sets.
-/

namespace PgTuning.Tidbitmap

open PgTuning.Lib List Set TIDBitmap

/-- A page becomes lossy, or stays as it is. -/
inductive Loses : PageInfo → PageInfo → Prop
  | same (i : PageInfo) : Loses i i
  | lossy (recheck : Bool) (words : BitVec nbits) : Loses (.exact recheck words) .lossy

theorem Loses.trans {i j k : PageInfo} (h₁ : Loses i j) (h₂ : Loses j k) : Loses i k := by
  cases h₁ with
  | same => exact h₂
  | lossy r w =>
    cases h₂ with
    | same => exact .lossy r w

/-- The pages of a bitmap lose precision at most. -/
def Coarser (t t' : TIDBitmap) : Prop := ∀ q, Loses (t.page q) (t'.page q)

/-! ## Losing precision -/

section Lossify

variable {t : TIDBitmap}

theorem pageOf_of_isExact {find : BlockNumber → Option PagetableEntry} (hReg : Regular find)
    {q : BlockNumber} (h : isExact find q) : ∃ r w, pageOf find q = .exact r w := by
  have hLossy := isLossy_of_isExact hReg h
  unfold isExact at h
  cases hFind : find q with
  | none =>
    rw [hFind] at h
    cases h
  | some e =>
    rw [hFind] at h
    have hChunk : e.ischunk = false := by simpa using h
    simp [pageOf, hLossy, hFind, hChunk]

theorem Inv.mark (h : Inv t) (p : BlockNumber) :
    Inv (t.tbmMarkPageLossy p) ∧ (t.tbmMarkPageLossy p).status = .hash ∧
      (t.tbmMarkPageLossy p).page p = .lossy ∧
      ∀ q, q ≠ p → Loses (t.page q) ((t.tbmMarkPageLossy p).page q) := by
  obtain ⟨hStored, hLimit, chunk, hMarks⟩ := h.markPageLossy p
  refine ⟨hStored.inv (hMarks.regular h.regular) (by rw [hLimit]; exact h.limit), hStored.status, ?_,
    fun q hq => ?_⟩
  · unfold page
    rw [lookup_of_hash hStored.status, hMarks.pageOf, if_pos (.inl rfl)]
  · unfold page
    rw [lookup_of_hash hStored.status, hMarks.pageOf]
    by_cases hHead : q = chunkOf p ∧ isExact t.lookup q
    · obtain ⟨r, w, hExact⟩ := pageOf_of_isExact h.regular hHead.2
      rw [if_pos (.inr hHead), hExact]
      exact .lossy r w
    · rw [if_neg (by tauto)]
      exact .same _

theorem Inv.lossifyLoop (ks : List BlockNumber) : ∀ t : TIDBitmap, Inv t → t.status = .hash →
    Inv (t.lossifyLoop ks) ∧ (t.lossifyLoop ks).status = .hash ∧ Coarser t (t.lossifyLoop ks) := by
  induction ks with
  | nil => exact fun t h hStatus => ⟨h, hStatus, fun q => .same _⟩
  | cons k ks ih =>
    intro t h hStatus
    unfold TIDBitmap.lossifyLoop
    cases hGet : t.pagetable.get? k with
    | none => exact ih t h hStatus
    | some page =>
      dsimp only
      split
      · exact ih t h hStatus
      · next hChunk =>
        split
        · exact ih t h hStatus
        · have hKey : page.blockno = k := (Table.get?_eq_some.mp hGet).2
          have hExact : isExact t.lookup page.blockno := by
            rw [hKey, lookup_of_hash hStatus]
            simpa [isExact, hGet] using hChunk
          obtain ⟨r, w, hPage⟩ := pageOf_of_isExact h.regular hExact
          obtain ⟨hInv, hStatus', hLossy, hOthers⟩ := h.mark page.blockno
          have hCoarser : Coarser t (t.tbmMarkPageLossy page.blockno) := by
            intro q
            by_cases hq : q = page.blockno
            · rw [hq, hLossy, show t.page page.blockno = _ from hPage]
              exact .lossy r w
            · exact hOthers q hq
          split
          · exact ⟨hInv, hStatus', hCoarser⟩
          · obtain ⟨h₁, h₂, h₃⟩ := ih _ hInv hStatus'
            exact ⟨h₁, h₂, fun q => (hCoarser q).trans (h₃ q)⟩

theorem Inv.withLimit (h : Inv t) {n : Int} (hn : 0 < n) : Inv { t with maxentries := n } :=
  ⟨h.regular, h.counted, h.single, hn⟩

variable (scan : TIDBitmap → List BlockNumber) (h : Inv t)
include scan h

/-- `tbm_lossify` loses precision at most. -/
theorem Inv.lossify (hStatus : t.status = .hash) :
    Inv (t.tbmLossify scan) ∧ Coarser t (t.tbmLossify scan) := by
  obtain ⟨hInv, -, hCoarser⟩ := Inv.lossifyLoop (scan t) t h hStatus
  unfold tbmLossify
  dsimp only
  split
  · next hMany =>
    have hLimit := hInv.limit
    exact ⟨hInv.withLimit (by omega), hCoarser⟩
  · exact ⟨hInv, hCoarser⟩

/-- The limit is only exceeded in the hash table. -/
theorem Inv.limitMemory :
    Inv (t.limitMemory scan) ∧ Coarser t (t.limitMemory scan) := by
  unfold TIDBitmap.limitMemory
  split
  · next hMany =>
    refine h.lossify scan ?_
    have hLimit := h.limit
    have hLength := h.counted.nentries
    cases hStatus : t.status with
    | hash => rfl
    | empty =>
      simp only [entries, hStatus, length_nil] at hLength
      omega
    | onePage =>
      simp only [entries, hStatus, length_singleton] at hLength
      omega
  · exact ⟨h, fun q => .same _⟩

end Lossify

/-! ## Over-approximation -/

/-- What is known about a page over-approximates a set of offsets. -/
def Approx : PageInfo → Set Nat → Prop
  | .absent, S => S = ∅
  | .lossy, _ => True
  | .exact recheck words, S =>
    (∀ o ∈ S, 1 ≤ o ∧ words.getLsbD (o - 1) = true) ∧
      (recheck = false → ∀ k, words.getLsbD k = true → k + 1 ∈ S)

/-- The offsets of the tuples of a set on a page. -/
def onPage (S : Set (BlockNumber × OffsetNumber)) (q : BlockNumber) : Set Nat := {o | (q, o) ∈ S}

theorem onPage_union_of_ne {S T : Set (BlockNumber × OffsetNumber)} {p q : BlockNumber}
    (hT : ∀ x ∈ T, x.1 = p) (hq : q ≠ p) : onPage (S ∪ T) q = onPage S q := by
  ext o
  constructor
  · rintro (ho | ho)
    · exact ho
    · exact absurd (hT _ ho) hq
  · exact .inl

/-- A bitmap over-approximates a set of tuples. -/
def OverApproximates (t : TIDBitmap) (S : Set (BlockNumber × OffsetNumber)) : Prop :=
  ∀ q, Approx (t.page q) (onPage S q)

variable {S T : Set Nat} {recheck : Bool}

theorem Approx.loses {i j : PageInfo} (h : Approx i S) (hLoses : Loses i j) : Approx j S := by
  cases hLoses with
  | same => exact h
  | lossy => trivial

theorem OverApproximates.coarser {t t' : TIDBitmap} {S : Set (BlockNumber × OffsetNumber)}
    (h : OverApproximates t S) (hCoarser : Coarser t t') : OverApproximates t' S :=
  fun q => (h q).loses (hCoarser q)

theorem approx_empty (r : Bool) : Approx (.exact r 0) ∅ := by
  refine ⟨fun o ho => absurd ho (notMem_empty o), fun _ k hk => ?_⟩
  simp at hk

section

variable {r₁ r₂ : Bool} {w₁ w₂ : BitVec nbits} (h₁ : Approx (.exact r₁ w₁) S)
  (h₂ : Approx (.exact r₂ w₂) T)
include h₁ h₂

theorem Approx.union : Approx (.exact (r₁ || r₂) (w₁ ||| w₂)) (S ∪ T) := by
  constructor
  · intro o ho
    rcases ho with ho | ho
    · exact ⟨(h₁.1 o ho).1, by simp [(h₁.1 o ho).2]⟩
    · exact ⟨(h₂.1 o ho).1, by simp [(h₂.1 o ho).2]⟩
  · intro hRecheck k hk
    rw [Bool.or_eq_false_iff] at hRecheck
    rw [BitVec.getLsbD_or, Bool.or_eq_true] at hk
    rcases hk with hk | hk
    · exact .inl (h₁.2 hRecheck.1 k hk)
    · exact .inr (h₂.2 hRecheck.2 k hk)

theorem Approx.inter : Approx (.exact (r₁ || r₂) (w₁ &&& w₂)) (S ∩ T) := by
  constructor
  · intro o ho
    exact ⟨(h₁.1 o ho.1).1, by simp [(h₁.1 o ho.1).2, (h₂.1 o ho.2).2]⟩
  · intro hRecheck k hk
    rw [Bool.or_eq_false_iff] at hRecheck
    rw [BitVec.getLsbD_and, Bool.and_eq_true] at hk
    exact ⟨h₁.2 hRecheck.1 k hk.1, h₂.2 hRecheck.2 k hk.2⟩

end

theorem approx_tuple {off : Nat} (hOff : 1 ≤ off ∧ off ≤ maxTuplesPerPage)
    (hSub : T ⊆ {off}) (hAll : recheck = false → T = {off}) :
    Approx (.exact recheck (BitVec.twoPow nbits (off - 1))) T := by
  have hBit : off - 1 < nbits := lt_of_lt_of_le (show off - 1 < maxTuplesPerPage by omega)
      (by decide : maxTuplesPerPage ≤ nbits)
  constructor
  · intro o ho
    have hEq : o = off := hSub ho
    rw [hEq]
    exact ⟨hOff.1, by simp [hBit]⟩
  · intro hRecheck k hk
    rw [BitVec.getLsbD_twoPow, Bool.and_eq_true, decide_eq_true_iff, decide_eq_true_iff] at hk
    rw [hAll hRecheck, mem_singleton_iff]
    omega

/-! ## What the code looks up -/

section Lookups

variable {t : TIDBitmap}

theorem Inv.no_chunk (h : Inv t) (hZero : t.nchunks = 0) {k : BlockNumber} {e : PagetableEntry}
    (he : t.lookup k = some e) : e.ischunk = false := by
  have hCount := h.counted.nchunks
  have hMem := mem_entries_of_lookup he
  have hNone : t.entries.countP (fun e => e.ischunk) = 0 := by omega
  rw [countP_eq_zero] at hNone
  simpa using hNone e hMem

theorem Inv.pageIsLossy (h : Inv t) (p : BlockNumber) :
    t.tbmPageIsLossy p = isLossy t.lookup p := by
  have hFree : t.nchunks = 0 → isLossy t.lookup p = false := by
    intro hZero
    unfold isLossy
    cases hFind : t.lookup (chunkOf p) with
    | none => rfl
    | some e => simp [h.no_chunk hZero hFind]
  unfold tbmPageIsLossy
  split_ifs with hZero
  · rw [hFree hZero]
  · have hHash : t.status = .hash := by
      by_contra hStatus
      refine hZero ?_
      rw [h.counted.nchunks]
      have hNone : t.entries.countP (fun e => e.ischunk) = 0 := by
        rw [countP_eq_zero]
        intro e he
        simp [h.single hStatus e he]
      omega
    rw [lookup_of_hash hHash]
    rfl

theorem Inv.findPageentry (h : Inv t) (p : BlockNumber) :
    t.tbmFindPageentry p = (t.lookup p).filter fun e => !e.ischunk := by
  unfold tbmFindPageentry
  by_cases hZero : t.nentries = 0
  · rw [if_pos hZero]
    cases hFind : t.lookup p with
    | none => rfl
    | some e =>
      have hMem := mem_entries_of_lookup hFind
      have hLength := h.counted.nentries
      have hPos := length_pos_of_mem hMem
      omega
  · rw [if_neg hZero]
    cases hStatus : t.status with
    | empty =>
      have hLength := h.counted.nentries
      simp only [entries, hStatus, length_nil] at hLength
      omega
    | onePage =>
      obtain ⟨hExact, hLookup, -⟩ := h.onePage hStatus
      by_cases hp : t.entry1.blockno = p
      · simp [hLookup, hp, Option.filter, hExact]
      · simp [hLookup, hp]
    | hash =>
      rw [lookup_of_hash hStatus]
      cases hGet : t.pagetable.get? p with
      | none => rfl
      | some e => cases hChunk : e.ischunk <;> simp [Option.filter, hChunk]

end Lookups

/-! ## Adding tuples and pages -/

variable {t : TIDBitmap} {S : Set (BlockNumber × OffsetNumber)}

variable {p : BlockNumber} {T : Set (BlockNumber × OffsetNumber)}
  {scan : TIDBitmap → List BlockNumber}

theorem approx_old {find : BlockNumber → Option PagetableEntry} {S : Set Nat}
    {old : PagetableEntry} (hOld : (find p).getD (newEntry p) = old)
    (hFree : isLossy find p = false) (hExact : old.ischunk = false)
    (h : Approx (pageOf find p) S) : Approx (.exact old.recheck old.words) S := by
  unfold pageOf at h
  rw [hFree] at h
  cases hFind : find p with
  | none =>
    rw [hFind] at h hOld
    rw [← hOld, show S = ∅ from h]
    exact approx_empty false
  | some e =>
    rw [hFind] at h hOld
    rw [show e = old from hOld] at h
    simpa [hExact] using h

/-- The entry of a page that is not lossy is made to cover more tuples. -/
theorem Inv.cover (scan : TIDBitmap → List BlockNumber) (h : Inv t)
    (hFree : isLossy t.lookup p = false) {words : PagetableEntry → BitVec nbits}
    {recheck : PagetableEntry → Bool} {r : Bool} {w : BitVec nbits}
    (hChunk : ∀ e, e.ischunk → words e = setBit e.words 0)
    (hExact : ∀ e, e.ischunk = false → words e = e.words ||| w ∧ recheck e = (e.recheck || r))
    (hT : ∀ x ∈ T, x.1 = p) (hw : Approx (.exact r w) (onPage T p)) (hS : OverApproximates t S) :
    Inv (((t.tbmGetPageentry p).updateEntry p words recheck).limitMemory scan) ∧
      OverApproximates (((t.tbmGetPageentry p).updateEntry p words recheck).limitMemory scan)
        (S ∪ T) := by
  have hChanged := h.getPageentry p words recheck
  generalize (t.tbmGetPageentry p).updateEntry p words recheck = t' at hChanged ⊢
  generalize hOld : (t.lookup p).getD (newEntry p) = old at hChanged
  have hPuts : Puts t.lookup t'.lookup p old (updated words recheck old) := by
    refine ⟨hOld, rfl, fun hIs i => ?_, hChanged.lookup⟩
    show (words old).getLsbD i = _
    rw [hChunk old hIs, getLsbD_setBit _ _ _ (by decide)]
  have hInv := hChanged.inv h hFree hPuts
  have hApprox : OverApproximates t' (S ∪ T) := by
    intro q
    unfold page
    rw [hPuts.pageOf h.regular hFree]
    by_cases hq : q = p
    · rw [if_pos hq, hq]
      cases hIs : old.ischunk with
      | true => trivial
      | false =>
        have hBoth := (approx_old hOld hFree hIs (hS p)).union hw
        obtain ⟨hWords, hRecheck⟩ := hExact old hIs
        rw [← hWords, ← hRecheck] at hBoth
        exact hBoth
    · rw [if_neg hq]
      rw [onPage_union_of_ne hT hq]
      exact hS q
  obtain ⟨h₁, h₂⟩ := hInv.limitMemory scan
  exact ⟨h₁, hApprox.coarser h₂⟩

theorem OverApproximates.of_lossy (hLossy : t.page p = .lossy)
    (hS : ∀ q, q ≠ p → Approx (t.page q) (onPage S q)) (hT : ∀ x ∈ T, x.1 = p) :
    OverApproximates t (S ∪ T) := by
  intro q
  by_cases hq : q = p
  · rw [hq, hLossy]
    trivial
  · rw [onPage_union_of_ne hT hq]
    exact hS q hq

theorem Inv.addTuple {t' : TIDBitmap} {tid : BlockNumber × OffsetNumber}
    (hAdd : TIDBitmap.addTuple scan recheck t tid = some t') (h : Inv t)
    (hS : OverApproximates t S) (hSub : T ⊆ {tid}) (hAll : recheck = false → T = {tid}) :
    Inv t' ∧ OverApproximates t' (S ∪ T) := by
  obtain ⟨blk, off⟩ := tid
  have hT : ∀ x ∈ T, x.1 = blk := fun x hx => by rw [show x = (blk, off) from hSub hx]
  unfold TIDBitmap.addTuple at hAdd
  simp only at hAdd
  split at hAdd
  · cases hAdd
  · next hRange =>
    rw [h.pageIsLossy] at hAdd
    split at hAdd
    · next hLossy =>
      injection hAdd with hAdd
      subst hAdd
      have hPage : t.page blk = .lossy := by simp [page, pageOf, hLossy]
      exact ⟨h, OverApproximates.of_lossy hPage (fun q _ => hS q) hT⟩
    · next hFree =>
      injection hAdd with hAdd
      subst hAdd
      have hOff : 1 ≤ off ∧ off ≤ maxTuplesPerPage := by
        rw [not_or, not_lt, not_lt] at hRange
        exact hRange
      have hOne : Approx (.exact recheck (BitVec.twoPow nbits (off - 1))) (onPage T blk) := by
        refine approx_tuple hOff (fun o ho => ?_) (fun hRecheck => ?_)
        · exact congrArg Prod.snd (show (blk, o) = (blk, off) from hSub ho)
        · ext o
          simp [onPage, hAll hRecheck]
      refine h.cover scan (by simpa using hFree) (fun e he => ?_) (fun e he => ?_) hT hOne hS
      · simp [he]
      · simp [he, setBit]

theorem Inv.addTuples (tids : List (BlockNumber × OffsetNumber)) :
    ∀ {t t' : TIDBitmap} {S T : Set (BlockNumber × OffsetNumber)},
      t.tbmAddTuples scan tids recheck = some t' → Inv t → OverApproximates t S →
      (∀ x ∈ T, x ∈ tids) → (recheck = false → ∀ x ∈ tids, x ∈ T) →
      Inv t' ∧ OverApproximates t' (S ∪ T) := by
  induction tids with
  | nil =>
    intro t t' S T hAdd h hS hSub _
    have hSame : t = t' := by simpa [tbmAddTuples] using hAdd
    have hEmpty : T = ∅ := eq_empty_of_forall_notMem fun x hx => by simpa using hSub x hx
    rw [← hSame, hEmpty, union_empty]
    exact ⟨h, hS⟩
  | cons tid tids ih =>
    intro t t' S T hAdd h hS hSub hAll
    unfold tbmAddTuples at hAdd
    rw [foldlM_cons] at hAdd
    cases hFirst : TIDBitmap.addTuple scan recheck t tid with
    | none =>
      rw [hFirst] at hAdd
      cases hAdd
    | some t₁ =>
      rw [hFirst] at hAdd
      -- The tuples of `T` are the first one, if it is in `T`, and those of the rest.
      obtain ⟨h₁, hS₁⟩ := Inv.addTuple hFirst h hS inter_subset_right
        (fun hRecheck => inter_eq_right.mpr
          (singleton_subset_iff.mpr (hAll hRecheck tid mem_cons_self)))
      have hRest := ih (T := T ∩ {x | x ∈ tids}) hAdd h₁ hS₁ (fun x hx => hx.2)
        (fun hRecheck x hx => ⟨hAll hRecheck x (mem_cons_of_mem _ hx), hx⟩)
      have hSplit : T ∩ {tid} ∪ T ∩ {x | x ∈ tids} = T := by
        rw [← inter_union_distrib_left, inter_eq_left]
        intro x hx
        exact mem_cons.mp (hSub x hx)
      rwa [union_assoc, hSplit] at hRest

theorem Inv.markSet (h : Inv t) (hS : OverApproximates t S) (p : BlockNumber)
    (hT : ∀ x ∈ T, x.1 = p) :
    Inv (t.tbmMarkPageLossy p) ∧ OverApproximates (t.tbmMarkPageLossy p) (S ∪ T) := by
  obtain ⟨hInv, -, hLossy, hOthers⟩ := h.mark p
  exact ⟨hInv, OverApproximates.of_lossy hLossy (fun q hq => (hS q).loses (hOthers q hq)) hT⟩

theorem Inv.addPage (scan : TIDBitmap → List BlockNumber) (h : Inv t)
    (hS : OverApproximates t S) (p : BlockNumber) (hT : ∀ x ∈ T, x.1 = p) :
    Inv (t.tbmAddPage scan p) ∧ OverApproximates (t.tbmAddPage scan p) (S ∪ T) := by
  obtain ⟨hInv, hMarked⟩ := h.markSet hS p hT
  obtain ⟨h₁, h₂⟩ := hInv.limitMemory scan
  exact ⟨h₁, hMarked.coarser h₂⟩

end PgTuning.Tidbitmap
