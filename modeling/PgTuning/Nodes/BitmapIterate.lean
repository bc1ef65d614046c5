import PgTuning.Nodes.BitmapUnion

/-!
# Iterating over a TID bitmap

An iterator stands for the exact pages and the lossy pages that are still to come
(`lossyFrom`). Each call takes the smaller of the two heads, so the calls merge the
two sorted lists.
-/

namespace PgTuning.Tidbitmap

open PgTuning.Lib List PagetableEntry Bool Nat

variable {i bit : Nat} {w : BitVec nbits} {cs pages : List PagetableEntry}
  {lossy : List BlockNumber} {q : BlockNumber}

theorem chunks_apart {c c' j : Nat} (hLt : c < c') (hc : c % pagesPerChunk = 0)
    (hc' : c' % pagesPerChunk = 0) (hi : i < pagesPerChunk) : c + i < c' + j := by
  unfold pagesPerChunk at *
  omega

/-! ## The lossy pages still to come -/

/-- The bits of a chunk that are set, from `bit` on. -/
def bitsFrom (words : BitVec nbits) (bit : Nat) : List Nat :=
  (range' bit (pagesPerChunk - bit)).filter words.getLsbD

/-- The lossy pages of some chunks, the first one from `bit` on. -/
def lossyFrom : List PagetableEntry → Nat → List BlockNumber
  | [], _ => []
  | c :: cs, bit => (bitsFrom c.words bit).map (c.blockno + ·) ++ lossyFrom cs 0

theorem mem_bitsFrom : i ∈ bitsFrom w bit ↔ bit ≤ i ∧ i < pagesPerChunk ∧ w.getLsbD i := by
  rw [bitsFrom, mem_filter, mem_range'_1]
  constructor
  · rintro ⟨⟨h₁, h₂⟩, h₃⟩
    exact ⟨h₁, by omega, h₃⟩
  · rintro ⟨h₁, h₂, h₃⟩
    exact ⟨⟨h₁, by omega⟩, h₃⟩

theorem bitsFrom_sorted (w : BitVec nbits) (bit : Nat) : (bitsFrom w bit).Pairwise (· < ·) :=
  List.Pairwise.filter _ pairwise_lt_range'

theorem bitsFrom_self (hBit : bit < pagesPerChunk) (hSet : w.getLsbD bit) :
    bitsFrom w bit = bit :: bitsFrom w (bit + 1) := by
  obtain ⟨n, hn⟩ : ∃ n, pagesPerChunk - bit = n + 1 := ⟨pagesPerChunk - bit - 1, by omega⟩
  have hNext : pagesPerChunk - (bit + 1) = n := by omega
  unfold bitsFrom
  rw [hn, hNext, range'_succ, filter_cons, if_pos hSet]

theorem nextBit_eq (w : BitVec nbits) (bit : Nat) : nextBit w bit = (bitsFrom w bit).head? := by
  unfold nextBit bitsFrom
  rw [head?_filter]

theorem bitsFrom_of_nextBit (h : nextBit w bit = some i) :
    bitsFrom w bit = bitsFrom w i ∧ i < pagesPerChunk ∧ w.getLsbD i := by
  rw [nextBit_eq, head?_eq_some_iff] at h
  obtain ⟨rest, hRest⟩ := h
  have hMem : i ∈ bitsFrom w bit := by simp [hRest]
  obtain ⟨hLe, hLt, hSet⟩ := mem_bitsFrom.mp hMem
  refine ⟨?_, hLt, hSet⟩
  have hSorted := bitsFrom_sorted w bit
  -- Both lists are sorted and have the same elements.
  refine List.Perm.eq_of_pairwise (fun a b _ _ h₁ h₂ => absurd h₁ (lt_asymm h₂)) hSorted
    (bitsFrom_sorted w i) ?_
  rw [perm_ext_iff_of_nodup (hSorted.imp ne_of_lt) ((bitsFrom_sorted w i).imp ne_of_lt)]
  intro j
  constructor
  · intro hj
    obtain ⟨_, hj₂, hj₃⟩ := mem_bitsFrom.mp hj
    refine mem_bitsFrom.mpr ⟨?_, hj₂, hj₃⟩
    rw [hRest] at hj hSorted
    rcases mem_cons.mp hj with hj | hj
    · omega
    · exact le_of_lt (rel_of_pairwise_cons hSorted hj)
  · intro hj
    obtain ⟨hj₁, hj₂, hj₃⟩ := mem_bitsFrom.mp hj
    exact mem_bitsFrom.mpr ⟨by omega, hj₂, hj₃⟩

/-- `advance` stops at the first lossy page still to come. -/
theorem advance_eq_some {blk ptr' bit' : Nat} :
    ∀ {ptr bit : Nat}, advance cs ptr bit = some (blk, ptr', bit') →
      ptr ≤ ptr' ∧ lossyFrom cs bit = lossyFrom (cs.drop (ptr' - ptr)) bit' ∧
        lossyFrom (cs.drop (ptr' - ptr)) bit' =
          blk :: lossyFrom (cs.drop (ptr' - ptr)) (bit' + 1) := by
  induction cs with
  | nil =>
    intro ptr bit h
    cases h
  | cons c cs ih =>
    intro ptr bit h
    unfold advance at h
    cases hNext : nextBit c.words bit with
    | some i =>
      simp only [hNext, Option.some.injEq, Prod.mk.injEq] at h
      obtain ⟨hBlk, hPtr, hBit⟩ := h
      subst hBlk hPtr hBit
      obtain ⟨hSame, hLt, hSet⟩ := bitsFrom_of_nextBit hNext
      rw [Nat.sub_self, drop_zero]
      refine ⟨le_rfl, ?_, ?_⟩
      · simp only [lossyFrom, hSame]
      · simp only [lossyFrom, bitsFrom_self hLt hSet, map_cons, cons_append]
    | none =>
      simp only [hNext] at h
      obtain ⟨hLe, h₁, h₂⟩ := ih h
      have hDrop : (c :: cs).drop (ptr' - ptr) = cs.drop (ptr' - (ptr + 1)) := by
        rw [show ptr' - ptr = ptr' - (ptr + 1) + 1 by omega, drop_succ_cons]
      have hNone : bitsFrom c.words bit = [] := by
        rw [← head?_eq_none_iff, ← nextBit_eq]
        exact hNext
      rw [hDrop]
      refine ⟨by omega, ?_, h₂⟩
      rw [lossyFrom, hNone, map_nil]
      exact h₁

theorem advance_eq_none : ∀ {ptr bit : Nat}, advance cs ptr bit = none → lossyFrom cs bit = [] := by
  induction cs with
  | nil =>
    intro ptr bit _
    rfl
  | cons c cs ih =>
    intro ptr bit h
    unfold advance at h
    cases hNext : nextBit c.words bit with
    | some i =>
      rw [hNext] at h
      cases h
    | none =>
      simp only [hNext] at h
      rw [nextBit_eq, head?_eq_none_iff] at hNext
      rw [lossyFrom, hNext, map_nil]
      exact ih h

/-! ## The calls of an iterator -/

/-- What an iterator has still to return: exact pages and lossy pages. -/
structure Remaining (l : Lists) (it : TBMIterator) (pages : List PagetableEntry)
    (lossy : List BlockNumber) : Prop where
  pages : l.spages.drop it.spageptr = pages
  lossy : lossyFrom (l.schunks.drop it.schunkptr) it.schunkbit = lossy

/-- The numerically next page of an exact and a lossy list. -/
def takeNext : List PagetableEntry → List BlockNumber →
    Option (TBMIterateResult × List PagetableEntry × List BlockNumber)
  | [], [] => none
  | p :: ps, [] => some (exactResult p, ps, [])
  | [], q :: qs => some (lossyResult q, [], qs)
  | p :: ps, q :: qs =>
    if q < p.blockno then some (lossyResult q, p :: ps, qs) else some (exactResult p, ps, q :: qs)

theorem tbmIterate_eq {l : Lists} {it : TBMIterator} (h : Remaining l it pages lossy) :
    match takeNext pages lossy with
    | none => tbmIterate l it = none
    | some (r, pages', lossy') =>
      ∃ it', tbmIterate l it = some (r, it') ∧ Remaining l it' pages' lossy' := by
  obtain ⟨hPages, hLossy⟩ := h
  have hHead : l.spages[it.spageptr]? = pages.head? := by
    rw [← hPages, head?_drop]
  have hTail : ∀ p ps, pages = p :: ps → l.spages.drop (it.spageptr + 1) = ps := by
    intro p ps hCons
    rw [← tail_drop, hPages, hCons, tail_cons]
  unfold tbmIterate
  rw [hHead]
  cases hAdvance : advance (l.schunks.drop it.schunkptr) it.schunkptr it.schunkbit with
  | none =>
    rw [advance_eq_none hAdvance] at hLossy
    subst hLossy
    cases pages with
    | nil => rfl
    | cons p ps =>
      refine ⟨_, rfl, hTail p ps rfl, ?_⟩
      rw [drop_length]
      rfl
  | some next =>
    obtain ⟨blk, ptr, bit⟩ := next
    obtain ⟨hLe, hStart, hFirst⟩ := advance_eq_some hAdvance
    have hDrop : (l.schunks.drop it.schunkptr).drop (ptr - it.schunkptr) = l.schunks.drop ptr := by
      rw [drop_drop]
      congr 1
      omega
    rw [hDrop] at hStart hFirst
    rw [hStart, hFirst] at hLossy
    subst hLossy
    cases pages with
    | nil => exact ⟨_, rfl, hPages, rfl⟩
    | cons p ps =>
      simp only [head?_cons, takeNext]
      by_cases hLt : blk < p.blockno
      · simp only [if_pos hLt]
        exact ⟨_, rfl, hPages, rfl⟩
      · simp only [if_neg hLt]
        exact ⟨_, rfl, hTail p ps rfl, hFirst⟩

/-- Two lists of pages that can be merged. -/
structure Mergeable (pages : List PagetableEntry) (lossy : List BlockNumber) : Prop where
  sortedPages : pages.Pairwise fun e e' => e.blockno < e'.blockno
  sortedLossy : lossy.Pairwise (· < ·)
  disjoint : ∀ e ∈ pages, e.blockno ∉ lossy

/-- The outputs for exact and lossy pages. -/
def outputs (pages : List PagetableEntry) (lossy : List BlockNumber) : List TBMIterateResult :=
  pages.map exactResult ++ lossy.map lossyResult

/-- An output comes before all that remain. -/
structure Takes (pages : List PagetableEntry) (lossy : List BlockNumber) (r : TBMIterateResult)
    (pages' : List PagetableEntry) (lossy' : List BlockNumber) : Prop where
  mergeable : Mergeable pages' lossy'
  perm : (r :: outputs pages' lossy').Perm (outputs pages lossy)
  below : ∀ x ∈ outputs pages' lossy', r.blockno < x.blockno

theorem Mergeable.takeLossy (h : Mergeable pages (q :: lossy))
    (hBelow : ∀ e ∈ pages, q < e.blockno) :
    Takes pages (q :: lossy) (lossyResult q) pages lossy := by
  obtain ⟨hFirst, hRest⟩ := pairwise_cons.mp h.sortedLossy
  refine ⟨⟨h.sortedPages, hRest, fun e he hMem => ?_⟩, ?_, fun x hx => ?_⟩
  · exact h.disjoint e he (mem_cons_of_mem q hMem)
  · exact perm_middle.symm
  · rcases mem_append.mp hx with hx | hx
    · obtain ⟨e, he, rfl⟩ := mem_map.mp hx
      exact hBelow e he
    · obtain ⟨q', hq', rfl⟩ := mem_map.mp hx
      exact hFirst q' hq'

theorem Mergeable.takeExact {p : PagetableEntry} (h : Mergeable (p :: pages) lossy)
    (hBelow : ∀ q ∈ lossy, p.blockno < q) :
    Takes (p :: pages) lossy (exactResult p) pages lossy := by
  obtain ⟨hFirst, hRest⟩ := pairwise_cons.mp h.sortedPages
  refine ⟨⟨hRest, h.sortedLossy, fun e he => ?_⟩, .refl _, fun x hx => ?_⟩
  · exact h.disjoint e (mem_cons_of_mem p he)
  · rcases mem_append.mp hx with hx | hx
    · obtain ⟨e, he, rfl⟩ := mem_map.mp hx
      exact hFirst e he
    · obtain ⟨q', hq', rfl⟩ := mem_map.mp hx
      exact hBelow q' hq'

/-- The next page is the smallest one, and the rest can be merged. -/
theorem takeNext_takes {pages' : List PagetableEntry} {lossy' : List BlockNumber}
    {r : TBMIterateResult} (h : Mergeable pages lossy)
    (hNext : takeNext pages lossy = some (r, pages', lossy')) :
    Takes pages lossy r pages' lossy' := by
  cases pages with
  | nil =>
    cases lossy with
    | nil => cases hNext
    | cons q qs =>
      obtain ⟨rfl, rfl, rfl⟩ := hNext
      exact h.takeLossy fun e he => absurd he not_mem_nil
  | cons p ps =>
    cases lossy with
    | nil =>
      obtain ⟨rfl, rfl, rfl⟩ := hNext
      exact h.takeExact fun q hq => absurd hq not_mem_nil
    | cons q qs =>
      simp only [takeNext] at hNext
      by_cases hLt : q < p.blockno
      · simp only [if_pos hLt] at hNext
        obtain ⟨rfl, rfl, rfl⟩ := hNext
        refine h.takeLossy fun e he => ?_
        rcases mem_cons.mp he with he | he
        · rw [he]
          exact hLt
        · exact lt_trans hLt (rel_of_pairwise_cons h.sortedPages he)
      · simp only [if_neg hLt] at hNext
        obtain ⟨rfl, rfl, rfl⟩ := hNext
        have hFirst : p.blockno < q := by
          have hNe : p.blockno ≠ q := fun hEq =>
            h.disjoint p mem_cons_self (by rw [hEq]; exact mem_cons_self)
          exact Nat.lt_of_le_of_ne (Nat.le_of_not_lt hLt) hNe
        refine h.takeExact fun q' hq' => ?_
        rcases mem_cons.mp hq' with hq' | hq'
        · rw [hq']
          exact hFirst
        · exact lt_trans hFirst (rel_of_pairwise_cons h.sortedLossy hq')

theorem takeNext_eq_none (h : takeNext pages lossy = none) : outputs pages lossy = [] := by
  cases pages with
  | nil =>
    cases lossy with
    | nil => rfl
    | cons q qs => cases h
  | cons p ps =>
    cases lossy with
    | nil => cases h
    | cons q qs =>
      simp only [takeNext] at h
      split at h <;> cases h

/-- The calls return all pages in order, and then nothing. -/
theorem tbmIterateAll_eq {l : Lists} (m : Nat) : ∀ {it : TBMIterator}
    {pages : List PagetableEntry} {lossy : List BlockNumber}, Remaining l it pages lossy →
      Mergeable pages lossy → (outputs pages lossy).length < m →
      ∃ rs, (∀ n, rs.length < n → tbmIterateAll l n it = (rs, true)) ∧
        rs.Perm (outputs pages lossy) ∧ (rs.map TBMIterateResult.blockno).Pairwise (· < ·) := by
  induction m with
  | zero =>
    omega
  | succ m ih =>
    intro it pages lossy hRemaining hMerge hLength
    have hCall := tbmIterate_eq hRemaining
    cases hNext : takeNext pages lossy with
    | none =>
      rw [hNext] at hCall
      rw [takeNext_eq_none hNext]
      refine ⟨[], fun n hn => ?_, .refl _, .nil⟩
      obtain ⟨k, rfl⟩ : ∃ k, n = k + 1 := ⟨n - 1, by simp at hn; omega⟩
      simp only [tbmIterateAll, hCall]
    | some next =>
      obtain ⟨r, pages', lossy'⟩ := next
      rw [hNext] at hCall
      obtain ⟨it', hIterate, hRemaining'⟩ := hCall
      have hTakes := takeNext_takes hMerge hNext
      have hShorter := hTakes.perm.length_eq
      rw [length_cons] at hShorter
      obtain ⟨rs, hRs, hPerm, hSorted⟩ := ih hRemaining' hTakes.mergeable (by omega)
      refine ⟨r :: rs, fun n hn => ?_, (hPerm.cons r).trans hTakes.perm, ?_⟩
      · rw [length_cons] at hn
        obtain ⟨k, rfl⟩ : ∃ k, n = k + 1 := ⟨n - 1, by omega⟩
        simp only [tbmIterateAll, hIterate, hRs k (by omega)]
      · rw [map_cons, pairwise_cons]
        refine ⟨fun q hq => ?_, hSorted⟩
        obtain ⟨x, hx, rfl⟩ := mem_map.mp hq
        exact hTakes.below x (hPerm.mem_iff.mp hx)

/-! ## The lists of an iteration -/

theorem mem_lossyFrom :
    q ∈ lossyFrom cs 0 ↔
      ∃ c ∈ cs, ∃ i, i < pagesPerChunk ∧ c.words.getLsbD i ∧ q = c.blockno + i := by
  induction cs with
  | nil => simp [lossyFrom]
  | cons c cs ih =>
    rw [lossyFrom, mem_append, ih]
    constructor
    · rintro (h | ⟨c', hc', h⟩)
      · obtain ⟨i, hi, rfl⟩ := mem_map.mp h
        obtain ⟨-, hLt, hSet⟩ := mem_bitsFrom.mp hi
        exact ⟨c, mem_cons_self, i, hLt, hSet, rfl⟩
      · exact ⟨c', mem_cons_of_mem c hc', h⟩
    · rintro ⟨c', hc', i, hLt, hSet, rfl⟩
      rcases mem_cons.mp hc' with rfl | hc'
      · exact .inl (mem_map.mpr ⟨i, mem_bitsFrom.mpr ⟨zero_le i, hLt, hSet⟩, rfl⟩)
      · exact .inr ⟨c', hc', i, hLt, hSet, rfl⟩

theorem lossyFrom_sorted (hSorted : cs.Pairwise fun c c' => c.blockno < c'.blockno)
    (hMod : ∀ c ∈ cs, c.blockno % pagesPerChunk = 0) : (lossyFrom cs 0).Pairwise (· < ·) := by
  induction cs with
  | nil => exact .nil
  | cons c cs ih =>
    obtain ⟨hFirst, hRest⟩ := pairwise_cons.mp hSorted
    rw [lossyFrom, pairwise_append]
    refine ⟨?_, ih hRest fun c' hc' => hMod c' (mem_cons_of_mem c hc'), ?_⟩
    · rw [pairwise_map]
      exact (bitsFrom_sorted c.words 0).imp fun hLt => Nat.add_lt_add_left hLt _
    · intro p hp q hq
      obtain ⟨i, hi, rfl⟩ := mem_map.mp hp
      obtain ⟨-, hLt, -⟩ := mem_bitsFrom.mp hi
      obtain ⟨c', hc', j, -, -, rfl⟩ := mem_lossyFrom.mp hq
      have hBefore := hFirst c' hc'
      have hc := hMod c mem_cons_self
      have hc'₂ := hMod c' (mem_cons_of_mem c hc')
      exact chunks_apart hBefore hc hc'₂ hLt

variable {t : TIDBitmap} {scan : TIDBitmap → List BlockNumber}

theorem entries_nodup (t : TIDBitmap) : (t.entries.map blockno).Nodup := by
  unfold TIDBitmap.entries
  cases t.status with
  | empty => exact nodup_nil
  | onePage => exact nodup_singleton _
  | hash => exact t.pagetable.nodup_keys

theorem Scans.entries (hScan : Scans scan) (t : TIDBitmap) :
    ((scan t).filterMap t.pagetable.get?).Perm t.pagetable.rows := by
  have hSame : (t.pagetable.rows.map blockno).filterMap t.pagetable.get? =
      t.pagetable.rows := by
    rw [filterMap_map]
    refine (filterMap_congr fun e he => ?_).trans filterMap_some
    exact Table.get?_eq_some.mpr ⟨he, rfl⟩
  have hPerm := (hScan t).filterMap t.pagetable.get?
  rwa [hSame] at hPerm

/-- A list of entries in the order of their numbers. -/
structure Sorted (l l' : List PagetableEntry) : Prop where
  perm : l.Perm l'
  sorted : l.Pairwise fun e e' => e.blockno < e'.blockno

theorem sorted_mergeSort {l l' : List PagetableEntry} (hPerm : l.Perm l')
    (hNodup : (l'.map blockno).Nodup) :
    Sorted (l.mergeSort fun a b => a.blockno ≤ b.blockno) l' := by
  have hPerm' := (mergeSort_perm l fun a b => a.blockno ≤ b.blockno).trans hPerm
  have hLe : (l.mergeSort fun a b => a.blockno ≤ b.blockno).Pairwise
      fun a b => decide (a.blockno ≤ b.blockno) := by
    refine pairwise_mergeSort (fun a b c h₁ h₂ => ?_) (fun a b => ?_) l
    · rw [decide_eq_true_iff] at h₁ h₂ ⊢
      exact le_trans h₁ h₂
    · rw [or_eq_true, decide_eq_true_iff, decide_eq_true_iff]
      exact le_total _ _
  have hNe := (hPerm'.map blockno).nodup_iff.mpr hNodup
  rw [List.Nodup, pairwise_map] at hNe
  refine ⟨hPerm', (hLe.and hNe).imp fun h => ?_⟩
  exact lt_of_le_of_ne (of_decide_eq_true h.1) h.2

theorem nodup_filter (t : TIDBitmap) (f : PagetableEntry → Bool) :
    ((t.entries.filter f).map blockno).Nodup :=
  (entries_nodup t).sublist (filter_sublist.map _)

variable (h : Inv t)
include h

theorem Inv.beginIterate (hScan : Scans scan) :
    Sorted (tbmBeginIterate scan t).spages (t.entries.filter fun e => !e.ischunk) ∧
      Sorted (tbmBeginIterate scan t).schunks (t.entries.filter fun e => e.ischunk) := by
  unfold tbmBeginIterate
  cases hStatus : t.status with
  | empty =>
    have hNone : t.entries = [] := by rw [TIDBitmap.entries, hStatus]
    rw [hNone]
    exact ⟨⟨.refl _, .nil⟩, ⟨.refl _, .nil⟩⟩
  | onePage =>
    have hOne : t.entries = [t.entry1] := by rw [TIDBitmap.entries, hStatus]
    have hExact := h.single (by rw [hStatus]; decide) t.entry1 (by rw [hOne]; exact .head _)
    have hPages : t.entries.filter (fun e => !e.ischunk) = [t.entry1] := by simp [hOne, hExact]
    have hChunks : t.entries.filter (fun e => e.ischunk) = [] := by simp [hOne, hExact]
    rw [hPages, hChunks]
    exact ⟨⟨.refl _, pairwise_singleton _ _⟩, ⟨.refl _, .nil⟩⟩
  | hash =>
    have hPerm : ((scan t).filterMap t.pagetable.get?).Perm t.entries := by
      rw [entries_of_hash hStatus]
      exact hScan.entries t
    exact ⟨sorted_mergeSort (hPerm.filter _) (nodup_filter t _),
      sorted_mergeSort (hPerm.filter _) (nodup_filter t _)⟩

/-- The counters are the lengths of the lists, so the calls stay within them. -/
theorem Inv.lists_length (hScan : Scans scan) :
    t.npages = (tbmBeginIterate scan t).spages.length ∧
      t.nchunks = (tbmBeginIterate scan t).schunks.length := by
  obtain ⟨hPages, hChunks⟩ := h.beginIterate hScan
  rw [hPages.perm.length_eq, hChunks.perm.length_eq, ← countP_eq_length_filter,
    ← countP_eq_length_filter]
  exact ⟨h.counted.npages, h.counted.nchunks⟩

theorem Inv.mem_lossy {cs : List PagetableEntry}
    (hcs : cs.Perm (t.entries.filter fun e => e.ischunk)) :
    q ∈ lossyFrom cs 0 ↔ isLossy t.lookup q := by
  rw [mem_lossyFrom]
  constructor
  · rintro ⟨c, hc, i, hi, hSet, rfl⟩
    obtain ⟨hMem, hChunk⟩ := mem_filter.mp (hcs.mem_iff.mp hc)
    have hFind := mem_entries.mp hMem
    obtain ⟨hMod, -⟩ := h.regular.chunk _ c hFind hChunk
    obtain ⟨hHead, hBit⟩ := chunkOf_add hMod hi
    simp [isLossy, hHead, hBit, hFind, hChunk, hSet]
  · intro hLossy
    unfold isLossy at hLossy
    cases hFind : t.lookup (chunkOf q) with
    | none =>
      rw [hFind] at hLossy
      cases hLossy
    | some c =>
      simp only [hFind, and_eq_true] at hLossy
      have hMem := mem_filter.mpr ⟨mem_entries_of_lookup hFind, hLossy.1⟩
      refine ⟨c, hcs.mem_iff.mpr hMem, q % pagesPerChunk, mod_lt q (by decide), hLossy.2, ?_⟩
      rw [blockno_of_lookup hFind]
      exact (chunkOf_add_mod q).symm

/-- What an iteration returns for a page. -/
def report (t : TIDBitmap) (q : BlockNumber) : Option TBMIterateResult :=
  match t.page q with
  | .absent => none
  | .lossy => some (lossyResult q)
  | .exact recheck words => some ⟨q, some ((bitsOf words).map (· + 1)), recheck⟩

/-- The outputs are what the bitmap says about its pages. -/
theorem Inv.mem_outputs {ps cs : List PagetableEntry}
    (hps : ps.Perm (t.entries.filter fun e => !e.ischunk))
    (hcs : cs.Perm (t.entries.filter fun e => e.ischunk)) {x : TBMIterateResult} :
    x ∈ outputs ps (lossyFrom cs 0) ↔ report t x.blockno = some x := by
  have hExact : ∀ e, e ∈ ps ↔ t.lookup e.blockno = some e ∧ e.ischunk = false := by
    intro e
    rw [hps.mem_iff, mem_filter, mem_entries]
    simp
  rw [outputs, mem_append, mem_map, mem_map]
  constructor
  · rintro (⟨e, he, rfl⟩ | ⟨q, hq, rfl⟩)
    · obtain ⟨hFind, hChunk⟩ := (hExact e).mp he
      have hFree := h.regular.disjoint _ e hFind hChunk
      simp [report, TIDBitmap.page, pageOf, exactResult, hFree, hFind, hChunk]
    · simp [report, TIDBitmap.page, pageOf, lossyResult, (h.mem_lossy hcs).mp hq]
  · intro hReport
    unfold report TIDBitmap.page pageOf at hReport
    cases hLossy : isLossy t.lookup x.blockno with
    | true =>
      simp only [hLossy, if_true, Option.some.injEq] at hReport
      exact .inr ⟨x.blockno, (h.mem_lossy hcs).mpr hLossy, hReport⟩
    | false =>
      cases hFind : t.lookup x.blockno with
      | none => simp [hLossy, hFind] at hReport
      | some e =>
        cases hChunk : e.ischunk with
        | true => simp [hLossy, hFind, hChunk] at hReport
        | false =>
          have hKey := blockno_of_lookup hFind
          simp only [hLossy, hFind, hChunk, false_eq_true, if_false, Option.some.injEq]
            at hReport
          refine .inl ⟨e, (hExact e).mpr ⟨by rw [hKey]; exact hFind, hChunk⟩, ?_⟩
          rw [exactResult, hKey]
          exact hReport

/-- An iteration returns every stored page once, in increasing order. -/
theorem Inv.iterate (hScan : Scans scan) :
    ∃ rs, (∀ n, rs.length < n → tbmIterateAll (tbmBeginIterate scan t) n ⟨0, 0, 0⟩ = (rs, true)) ∧
      (rs.map TBMIterateResult.blockno).Pairwise (· < ·) ∧
      ∀ x, x ∈ rs ↔ report t x.blockno = some x := by
  obtain ⟨hPages, hChunks⟩ := h.beginIterate hScan
  have hMod : ∀ c ∈ (tbmBeginIterate scan t).schunks, c.blockno % pagesPerChunk = 0 := by
    intro c hc
    obtain ⟨hMem, hChunk⟩ := mem_filter.mp (hChunks.perm.mem_iff.mp hc)
    exact (h.regular.chunk _ c (mem_entries.mp hMem) hChunk).1
  have hMerge : Mergeable (tbmBeginIterate scan t).spages
      (lossyFrom (tbmBeginIterate scan t).schunks 0) := by
    refine ⟨hPages.sorted, lossyFrom_sorted hChunks.sorted hMod, fun e he hLossy => ?_⟩
    obtain ⟨hMem, hExact⟩ := mem_filter.mp (hPages.perm.mem_iff.mp he)
    have hFree := h.regular.disjoint _ e (mem_entries.mp hMem) (by simpa using hExact)
    rw [(h.mem_lossy hChunks.perm).mp hLossy] at hFree
    cases hFree
  have hStart : Remaining (tbmBeginIterate scan t) ⟨0, 0, 0⟩ (tbmBeginIterate scan t).spages
      (lossyFrom (tbmBeginIterate scan t).schunks 0) := ⟨rfl, rfl⟩
  obtain ⟨rs, hRs, hPerm, hSorted⟩ := tbmIterateAll_eq _ hStart hMerge (lt_succ_self _)
  exact ⟨rs, hRs, hSorted, fun x => hPerm.mem_iff.trans (h.mem_outputs hPages.perm hChunks.perm)⟩

end PgTuning.Tidbitmap
