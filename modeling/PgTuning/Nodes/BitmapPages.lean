import PgTuning.Nodes.Tidbitmap

/-!
# What a TID bitmap says about a page

A bitmap says of every page that it is absent, that some of its tuples are in the
set (exact), or nothing but that the page has to be looked at (lossy). `page` reads
this off the entries. The lemmas of this module say what the elementary operations
do to the entries, to the counters and to `page`: making a page lossy may turn the
exact first page of its chunk lossy as well, and leaves all other pages alone.
-/

namespace PgTuning.Tidbitmap

open PgTuning.Lib List Function

/-- What is known about a page. -/
inductive PageInfo where
  | absent
  | lossy
  | exact (recheck : Bool) (words : BitVec nbits)

namespace TIDBitmap

/-- The entries of a bitmap. -/
def entries (t : TIDBitmap) : List PagetableEntry :=
  match t.status with
  | .empty => []
  | .onePage => [t.entry1]
  | .hash => t.pagetable.rows

/-- The entry with a given number, exact page or chunk. -/
def lookup (t : TIDBitmap) (k : BlockNumber) : Option PagetableEntry :=
  match t.status with
  | .empty => none
  | .onePage => if t.entry1.blockno = k then some t.entry1 else none
  | .hash => t.pagetable.get? k

end TIDBitmap

/-- The number of the first page of a chunk. -/
def chunkOf (p : Nat) : Nat := p - p % pagesPerChunk

/-- The page is marked in a chunk. -/
def isLossy (find : BlockNumber → Option PagetableEntry) (p : BlockNumber) : Bool :=
  match find (chunkOf p) with
  | some e => e.ischunk && e.words.getLsbD (p % pagesPerChunk)
  | none => false

/-- What entries say about a page. -/
def pageOf (find : BlockNumber → Option PagetableEntry) (p : BlockNumber) : PageInfo :=
  if isLossy find p then .lossy
  else
    match find p with
    | some e => if e.ischunk then .absent else .exact e.recheck e.words
    | none => .absent

def TIDBitmap.page (t : TIDBitmap) (p : BlockNumber) : PageInfo := pageOf t.lookup p

/-- The entries of a bitmap are in order: chunks start at multiples of the chunk size
and have bits for their own pages only; no page has both an exact entry and a lossy
bit. -/
structure Regular (find : BlockNumber → Option PagetableEntry) : Prop where
  chunk : ∀ k e, find k = some e → e.ischunk = true →
    k % pagesPerChunk = 0 ∧ ∀ i, e.words.getLsbD i = true → i < pagesPerChunk
  disjoint : ∀ k e, find k = some e → e.ischunk = false → isLossy find k = false

/-- Counters that agree with a list of entries. -/
structure Counts (nentries npages nchunks : Int) (l : List PagetableEntry) : Prop where
  nentries : nentries = l.length
  npages : npages = l.countP fun e => !e.ischunk
  nchunks : nchunks = l.countP fun e => e.ischunk

def Counted (t : TIDBitmap) : Prop := Counts t.nentries t.npages t.nchunks t.entries

/-- The invariant of a bitmap. Chunks are only kept in the hash table. -/
structure Inv (t : TIDBitmap) : Prop where
  regular : Regular t.lookup
  counted : Counted t
  single : t.status ≠ .hash → ∀ e ∈ t.entries, e.ischunk = false
  limit : 0 < t.maxentries

theorem mod_chunkOf (p : Nat) : chunkOf p % pagesPerChunk = 0 := by
  unfold chunkOf pagesPerChunk
  omega

theorem chunkOf_of_mod {p : Nat} (h : p % pagesPerChunk = 0) : chunkOf p = p := by
  unfold chunkOf
  omega

theorem chunkOf_add {c k : Nat} (hc : c % pagesPerChunk = 0) (hk : k < pagesPerChunk) :
    chunkOf (c + k) = c ∧ (c + k) % pagesPerChunk = k := by
  unfold chunkOf pagesPerChunk at *
  omega

theorem chunkOf_add_mod (p : Nat) : chunkOf p + p % pagesPerChunk = p := by
  unfold chunkOf pagesPerChunk
  omega

theorem eq_iff_of_chunk {p q : Nat} (hChunk : chunkOf p = chunkOf q) :
    p % pagesPerChunk = q % pagesPerChunk ↔ p = q := by
  unfold chunkOf pagesPerChunk at *
  omega

theorem mod_eq_zero_iff {p : Nat} : p % pagesPerChunk = 0 ↔ p = chunkOf p := by
  unfold chunkOf pagesPerChunk
  omega

theorem ne_of_chunk {p q : Nat} (h : chunkOf q ≠ chunkOf p) :
    chunkOf q ≠ p ∧ q ≠ p ∧ q ≠ chunkOf p := by
  unfold chunkOf pagesPerChunk at *
  omega

theorem getLsbD_setBit (w : BitVec nbits) (k i : Nat) (hk : k < nbits) :
    (setBit w k).getLsbD i = (w.getLsbD i || decide (i = k)) := by
  unfold setBit
  simp [hk, eq_comm]

theorem mem_bitsOf {w : BitVec nbits} {k : Nat} : k ∈ bitsOf w ↔ w.getLsbD k := by
  unfold bitsOf
  rw [mem_filter, mem_range]
  constructor
  · exact fun h => h.2
  · intro h
    refine ⟨?_, h⟩
    by_contra hGe
    rw [BitVec.getLsbD_of_ge w k (by omega)] at h
    cases h

/-! ## Counting -/

variable {c n p : Int} {l : List PagetableEntry} {e : PagetableEntry} {t : TIDBitmap}
  {k : BlockNumber}

theorem Counts.perm {l' : List PagetableEntry} (h : Counts n p c l) (hPerm : l.Perm l') :
    Counts n p c l' := by
  obtain ⟨h₁, h₂, h₃⟩ := h
  rw [hPerm.length_eq] at h₁
  rw [hPerm.countP_eq] at h₂ h₃
  exact ⟨h₁, h₂, h₃⟩

theorem Counts.map (h : Counts n p c l) {f : PagetableEntry → PagetableEntry}
    (hf : ∀ e, (f e).ischunk = e.ischunk) : Counts n p c (l.map f) := by
  obtain ⟨h₁, h₂, h₃⟩ := h
  refine ⟨by rw [length_map]; exact h₁, ?_, ?_⟩
  · rw [countP_map, h₂]
    simp only [comp_def, hf]
  · rw [countP_map, h₃]
    simp only [comp_def, hf]

theorem counts_cons :
    Counts n p c (e :: l) ↔
      Counts (n - 1) (if e.ischunk then p else p - 1) (if e.ischunk then c - 1 else c) l := by
  have hCount : ∀ f : PagetableEntry → Bool,
      ((e :: l).countP f : Int) = l.countP f + if f e then 1 else 0 := by
    intro f
    rw [countP_cons]
    split <;> simp
  constructor
  · rintro ⟨h₁, h₂, h₃⟩
    cases hChunk : e.ischunk <;> simp [hChunk] at h₁ h₂ h₃ ⊢ <;>
      exact ⟨by omega, by omega, by omega⟩
  · rintro ⟨h₁, h₂, h₃⟩
    refine ⟨by rw [length_cons]; omega, ?_, ?_⟩ <;> rw [hCount] <;>
      cases hChunk : e.ischunk <;> simp [hChunk] at h₂ h₃ ⊢ <;> omega

/-! ## Entries and the hash table -/

theorem mem_entries : e ∈ t.entries ↔ t.lookup e.blockno = some e := by
  unfold TIDBitmap.entries TIDBitmap.lookup
  cases t.status with
  | empty => simp
  | onePage =>
    simp only [mem_singleton]
    constructor
    · intro h
      rw [h, if_pos rfl]
    · intro h
      split at h
      · injection h with h
        exact h.symm
      · cases h
  | hash =>
    constructor
    · exact fun h => Table.get?_eq_some.mpr ⟨h, rfl⟩
    · exact fun h => (Table.get?_eq_some.mp h).1

theorem blockno_of_lookup (h : t.lookup k = some e) : e.blockno = k := by
  unfold TIDBitmap.lookup at h
  cases hStatus : t.status with
  | empty =>
    rw [hStatus] at h
    cases h
  | onePage =>
    simp only [hStatus] at h
    split at h
    · next hKey =>
      injection h with h
      rw [← h]
      exact hKey
    · cases h
  | hash =>
    rw [hStatus] at h
    exact (Table.get?_eq_some.mp h).2

theorem eq_ite_of_eq {f : BlockNumber → Option PagetableEntry} {p : BlockNumber}
    {o : Option PagetableEntry} (h : f p = o) (k : BlockNumber) :
    f k = if k = p then o else f k := by
  split_ifs with hk
  · rw [hk, h]
  · rfl

theorem mem_entries_of_lookup (h : t.lookup k = some e) : e ∈ t.entries := by
  rw [mem_entries, blockno_of_lookup h]
  exact h

/-- A bitmap in the hash table, with the right counters. -/
structure Stored (t : TIDBitmap) : Prop where
  status : t.status = .hash
  counts : Counts t.nentries t.npages t.nchunks t.pagetable.rows

theorem maxentries_removePage (t : TIDBitmap) (p : BlockNumber) :
    (t.removePage p).maxentries = t.maxentries := by
  unfold TIDBitmap.removePage
  split <;> rfl

theorem maxentries_enterChunk (t : TIDBitmap) (c : BlockNumber) :
    (t.enterChunk c).maxentries = t.maxentries := by
  unfold TIDBitmap.enterChunk
  split
  · rfl
  · split <;> rfl

theorem maxentries_enterPage (t : TIDBitmap) (p : BlockNumber) :
    (t.enterPage p).maxentries = t.maxentries := by
  unfold TIDBitmap.enterPage
  split <;> rfl

theorem maxentries_updateEntry (t : TIDBitmap) (p : BlockNumber)
    (words : PagetableEntry → BitVec nbits) (recheck : PagetableEntry → Bool) :
    (t.updateEntry p words recheck).maxentries = t.maxentries := by
  unfold TIDBitmap.updateEntry
  dsimp only
  split <;> rfl

section Stored

variable {t : TIDBitmap}

theorem lookup_of_hash (h : t.status = .hash) : t.lookup = t.pagetable.get? := by
  unfold TIDBitmap.lookup
  rw [h]

theorem entries_of_hash (h : t.status = .hash) : t.entries = t.pagetable.rows := by
  unfold TIDBitmap.entries
  rw [h]

/-- A bitmap of one page: its entry is exact and the only one. -/
theorem Inv.onePage (h : Inv t) (hStatus : t.status = .onePage) :
    t.entry1.ischunk = false ∧
    (∀ k, t.lookup k = if t.entry1.blockno = k then some t.entry1 else none) ∧
    Counts (t.nentries - 1) (t.npages - 1) t.nchunks [] := by
  have hEntries : t.entries = [t.entry1] := by rw [TIDBitmap.entries, hStatus]
  have hExact := h.single (by rw [hStatus]; decide) t.entry1 (by simp [hEntries])
  refine ⟨hExact, fun k => by rw [TIDBitmap.lookup, hStatus], ?_⟩
  have hCounts : Counts t.nentries t.npages t.nchunks t.entries := h.counted
  rw [hEntries, counts_cons, hExact] at hCounts
  exact hCounts

theorem Inv.stored (h : Inv t) (hStatus : t.status = .hash) : Stored t := by
  have hCounts : Counts t.nentries t.npages t.nchunks t.entries := h.counted
  rw [entries_of_hash hStatus] at hCounts
  exact ⟨hStatus, hCounts⟩

variable (h : Stored t)
include h

theorem Stored.inv (hReg : Regular t.pagetable.get?) (hLimit : 0 < t.maxentries) : Inv t := by
  refine ⟨by rw [lookup_of_hash h.status]; exact hReg, ?_, fun hNot => absurd h.status hNot, hLimit⟩
  unfold Counted
  rw [entries_of_hash h.status]
  exact h.counts

omit h in
/-- The switch to a hash table keeps the entries. -/
theorem Inv.createPagetable (h : Inv t) (hStatus : t.status ≠ .hash) :
    Stored t.tbmCreatePagetable ∧ t.tbmCreatePagetable.pagetable.get? = t.lookup := by
  have hCounts : Counts t.nentries t.npages t.nchunks t.entries := h.counted
  have hRows : t.tbmCreatePagetable.pagetable.rows = t.entries := by
    cases hCase : t.status with
    | empty => simp [TIDBitmap.tbmCreatePagetable, TIDBitmap.entries, hCase, Table.empty]
    | onePage =>
      simp [TIDBitmap.tbmCreatePagetable, TIDBitmap.entries, hCase, Table.empty, Table.insert,
        Table.insertRow]
    | hash => exact absurd hCase hStatus
  rw [← hRows] at hCounts
  refine ⟨⟨rfl, hCounts⟩, ?_⟩
  funext k
  cases hCase : t.status with
  | empty => simp [TIDBitmap.tbmCreatePagetable, TIDBitmap.lookup, hCase, Table.get?_empty]
  | onePage =>
    simp [TIDBitmap.tbmCreatePagetable, TIDBitmap.lookup, hCase,
      Table.get?_insert (Table.get?_empty _), Table.get?_empty, eq_comm]
  | hash => exact absurd hCase hStatus

theorem Stored.insert {n p c : Int} (hFresh : t.pagetable.get? e.blockno = none)
    (hCounts : Counts n p c (e :: t.pagetable.rows)) :
    Stored { t with pagetable := t.pagetable.insert e, nentries := n, npages := p, nchunks := c } :=
  ⟨h.status, hCounts.perm (Table.insert_perm hFresh).symm⟩

theorem Stored.removePage (p : BlockNumber)
    (hExact : ∀ e, t.pagetable.get? p = some e → e.ischunk = false) :
    Stored (t.removePage p) ∧
      ∀ k, (t.removePage p).pagetable.get? k = if k = p then none else t.pagetable.get? k := by
  unfold TIDBitmap.removePage
  cases hGet : t.pagetable.get? p with
  | none => exact ⟨h, eq_ite_of_eq hGet⟩
  | some e =>
    have hCounts := counts_cons.mp (h.counts.perm (Table.erase_perm hGet))
    rw [hExact e hGet] at hCounts
    exact ⟨⟨h.status, hCounts⟩, Table.get?_erase t.pagetable p⟩

/-- The entry that `enterChunk` leaves for a chunk. -/
def chunkFor (c : BlockNumber) : Option PagetableEntry → PagetableEntry
  | none => newChunk c
  | some e => if e.ischunk then e else asChunk e

theorem Stored.enterChunk (c : BlockNumber) :
    Stored (t.enterChunk c) ∧
      ∀ k, (t.enterChunk c).pagetable.get? k =
        if k = c then some (chunkFor c (t.pagetable.get? c)) else t.pagetable.get? k := by
  unfold TIDBitmap.enterChunk
  cases hGet : t.pagetable.get? c with
  | none =>
    have hCounts : Counts (t.nentries + 1) t.npages (t.nchunks + 1) (newChunk c :: t.pagetable.rows) := by
      rw [counts_cons]
      simpa [newChunk] using h.counts
    exact ⟨h.insert hGet hCounts, Table.get?_insert hGet⟩
  | some e =>
    dsimp only [chunkFor]
    split
    · exact ⟨h, eq_ite_of_eq hGet⟩
    · next hChunk =>
      have hOld := counts_cons.mp (h.counts.perm (Table.erase_perm hGet))
      have hExact : e.ischunk = false := by simpa using hChunk
      rw [hExact] at hOld
      have hCounts : Counts t.nentries (t.npages - 1) (t.nchunks + 1)
          (asChunk e :: (t.pagetable.erase c).rows) := by
        rw [counts_cons]
        simpa [asChunk] using hOld
      have hPerm := Table.modify_perm blockno_asChunk hGet
      refine ⟨⟨h.status, hCounts.perm hPerm.symm⟩, fun k => ?_⟩
      rw [Table.get?_modify]
      by_cases hk : k = c
      · rw [if_pos hk, if_pos hk, hk, hGet]
        rfl
      · rw [if_neg hk, if_neg hk]

theorem Stored.enterPage (p : BlockNumber) :
    Stored (t.enterPage p) ∧
      ∀ k, (t.enterPage p).pagetable.get? k =
        if k = p then some ((t.pagetable.get? p).getD (newEntry p)) else t.pagetable.get? k := by
  unfold TIDBitmap.enterPage
  cases hGet : t.pagetable.get? p with
  | none =>
    have hCounts : Counts (t.nentries + 1) (t.npages + 1) t.nchunks
        (newEntry p :: t.pagetable.rows) := by
      rw [counts_cons]
      simpa [newEntry] using h.counts
    exact ⟨h.insert hGet hCounts, Table.get?_insert hGet⟩
  | some e => exact ⟨h, eq_ite_of_eq hGet⟩

theorem Stored.updateEntry (p : BlockNumber)
    (words : PagetableEntry → BitVec nbits) (recheck : PagetableEntry → Bool) :
    Stored (t.updateEntry p words recheck) ∧
      ∀ k, (t.updateEntry p words recheck).pagetable.get? k =
        if k = p then
          (t.pagetable.get? k).map fun e => { e with words := words e, recheck := recheck e }
        else t.pagetable.get? k := by
  unfold TIDBitmap.updateEntry
  rw [if_pos h.status]
  refine ⟨⟨h.status, h.counts.map ?_⟩, fun k => ?_⟩
  · intro e
    split <;> rfl
  · dsimp only
    rw [Table.get?_modify]

end Stored

/-! ## Making a page lossy -/

/-- The bits of a chunk before a page of it is marked: an exact first page counts as
its bit. -/
def chunkBit (find : BlockNumber → Option PagetableEntry) (c : BlockNumber) (i : Nat) : Bool :=
  match find c with
  | some e => if e.ischunk then e.words.getLsbD i else decide (i = 0)
  | none => false

theorem getLsbD_chunkFor (find : BlockNumber → Option PagetableEntry) (c : BlockNumber) (i : Nat) :
    (chunkFor c (find c)).words.getLsbD i = chunkBit find c i := by
  unfold chunkFor chunkBit
  cases find c with
  | none => simp [newChunk]
  | some e =>
    dsimp only
    split
    · rfl
    · unfold asChunk
      rw [getLsbD_setBit _ _ _ (by decide)]
      simp

theorem ischunk_chunkFor (c : BlockNumber) (o : Option PagetableEntry) :
    (chunkFor c o).ischunk := by
  unfold chunkFor
  cases o with
  | none => rfl
  | some e =>
    dsimp only
    split
    · assumption
    · rfl

/-- The entries after a page is made lossy. -/
structure Marks (find find' : BlockNumber → Option PagetableEntry) (p : BlockNumber)
    (chunk : PagetableEntry) : Prop where
  ischunk : chunk.ischunk = true
  bits : ∀ i, chunk.words.getLsbD i = (chunkBit find (chunkOf p) i || decide (i = p % pagesPerChunk))
  find' : ∀ k, find' k = if k = chunkOf p then some chunk else if k = p then none else find k

/-- The bitmap that `tbm_mark_page_lossy` works on is in the hash table. -/
theorem Inv.inTable {t₀ : TIDBitmap} (h : Inv t)
    (ht₀ : (if t.status ≠ .hash then t.tbmCreatePagetable else t) = t₀) :
    Stored t₀ ∧ t₀.pagetable.get? = t.lookup ∧ t₀.maxentries = t.maxentries := by
  subst ht₀
  split
  · next hStatus =>
    have hCreate := h.createPagetable hStatus
    exact ⟨hCreate.1, hCreate.2, rfl⟩
  · next hStatus =>
    have hHash : t.status = .hash := by simpa using hStatus
    exact ⟨h.stored hHash, (lookup_of_hash hHash).symm, rfl⟩

/-- An entry under a number that is no multiple of the chunk size is exact, so it can be
removed. -/
theorem Stored.removeInner {t₁ : TIDBitmap} (h : Stored t) (hReg : Regular t.pagetable.get?)
    {p : BlockNumber} (ht₁ : (if p % pagesPerChunk ≠ 0 then t.removePage p else t) = t₁) :
    Stored t₁ ∧ t₁.maxentries = t.maxentries ∧
      ∀ k, t₁.pagetable.get? k =
        if p % pagesPerChunk ≠ 0 ∧ k = p then none else t.pagetable.get? k := by
  subst ht₁
  split
  · next hMod =>
    have hExact : ∀ e, t.pagetable.get? p = some e → e.ischunk = false := by
      intro e he
      by_contra hChunk
      exact hMod (hReg.chunk p e he (by simpa using hChunk)).1
    obtain ⟨hStored, hFind⟩ := h.removePage p hExact
    refine ⟨hStored, maxentries_removePage t p, fun k => ?_⟩
    rw [hFind]
    simp only [hMod, ne_eq, not_false_eq_true, true_and]
  · next hMod =>
    refine ⟨h, rfl, fun k => ?_⟩
    rw [if_neg (fun hBoth => hMod hBoth.1)]

theorem Inv.markPageLossy (h : Inv t) (p : BlockNumber) :
    Stored (t.tbmMarkPageLossy p) ∧ (t.tbmMarkPageLossy p).maxentries = t.maxentries ∧
      ∃ chunk, Marks t.lookup (t.tbmMarkPageLossy p).pagetable.get? p chunk := by
  unfold TIDBitmap.tbmMarkPageLossy
  generalize ht₀ : (if t.status ≠ .hash then t.tbmCreatePagetable else t) = t₀
  obtain ⟨hStored, hFind, hLimit⟩ := h.inTable ht₀
  have hReg : Regular t₀.pagetable.get? := by
    rw [hFind]
    exact h.regular
  dsimp only
  rw [show p - p % pagesPerChunk = chunkOf p from rfl]
  generalize ht₁ : (if p % pagesPerChunk ≠ 0 then t₀.removePage p else t₀) = t₁
  obtain ⟨hStored₁, hLimit₁, hFind₁⟩ := hStored.removeInner hReg ht₁
  obtain ⟨hStored₂, hFind₂⟩ := hStored₁.enterChunk (chunkOf p)
  obtain ⟨hStored₃, hFind₃⟩ := hStored₂.updateEntry (chunkOf p)
    (fun e => setBit e.words (p % pagesPerChunk)) (fun e => e.recheck)
  have hHead : t₁.pagetable.get? (chunkOf p) = t.lookup (chunkOf p) := by
    rw [hFind₁, hFind, if_neg]
    rintro ⟨hMod, hEq⟩
    rw [← hEq] at hMod
    exact hMod (mod_chunkOf p)
  rw [hHead] at hFind₂
  refine ⟨hStored₃, ?_, { chunkFor (chunkOf p) (t.lookup (chunkOf p)) with
    words := setBit (chunkFor (chunkOf p) (t.lookup (chunkOf p))).words (p % pagesPerChunk) },
    ischunk_chunkFor _ _, fun i => ?_, fun k => ?_⟩
  · rw [maxentries_updateEntry, maxentries_enterChunk, hLimit₁, hLimit]
  · have hBit : p % pagesPerChunk < nbits :=
      lt_trans (Nat.mod_lt p (by decide)) (by decide : pagesPerChunk < nbits)
    rw [getLsbD_setBit _ _ _ hBit, getLsbD_chunkFor]
  · rw [hFind₃ k, hFind₂ k]
    by_cases hk : k = chunkOf p
    · rw [if_pos hk, if_pos hk, if_pos hk]
      rfl
    · rw [if_neg hk, if_neg hk, if_neg hk, hFind₁, hFind]
      by_cases hp : k = p
      · have hMod : p % pagesPerChunk ≠ 0 := fun hZero => hk (hp.trans (mod_eq_zero_iff.mp hZero))
        rw [if_pos ⟨hMod, hp⟩, if_pos hp]
      · rw [if_neg (fun hBoth => hp hBoth.2), if_neg hp]

section Marks

variable {find find' : BlockNumber → Option PagetableEntry} {p : BlockNumber}
  {chunk : PagetableEntry}

/-- The page has an entry of its own. -/
def isExact (find : BlockNumber → Option PagetableEntry) (q : BlockNumber) : Bool :=
  match find q with
  | some e => !e.ischunk
  | none => false

theorem isLossy_of_isExact (hReg : Regular find) {q : BlockNumber} (h : isExact find q) :
    isLossy find q = false := by
  unfold isExact at h
  cases hFind : find q with
  | none =>
    rw [hFind] at h
    cases h
  | some e =>
    rw [hFind] at h
    exact hReg.disjoint q e hFind (by simpa using h)

/-- A chunk before the marking has its lossy pages, or its first page if that is exact. -/
theorem chunkBit_eq (find : BlockNumber → Option PagetableEntry) (q : BlockNumber) :
    chunkBit find (chunkOf q) (q % pagesPerChunk) =
      (isLossy find q || (decide (q = chunkOf q) && isExact find q)) := by
  by_cases hq : q = chunkOf q
  · have hZero := mod_eq_zero_iff.mpr hq
    unfold chunkBit isLossy isExact
    rw [← hq, hZero]
    cases hFind : find q with
    | none => simp
    | some e => cases hChunk : e.ischunk <;> simp [hChunk]
  · have hNonzero : ¬ q % pagesPerChunk = 0 := fun h => hq (mod_eq_zero_iff.mp h)
    unfold chunkBit isLossy
    cases hFind : find (chunkOf q) with
    | none => simp [hq]
    | some e => cases hChunk : e.ischunk <;> simp [hq, hNonzero]

variable (h : Marks find find' p chunk)
include h

theorem Marks.isLossy (q : BlockNumber) :
    isLossy find' q =
      (isLossy find q || decide (q = p) || (decide (q = chunkOf p) && isExact find q)) := by
  by_cases hSame : chunkOf q = chunkOf p
  · have hBit : (decide (q % pagesPerChunk = p % pagesPerChunk)) = decide (q = p) :=
      decide_eq_decide.mpr (eq_iff_of_chunk hSame)
    have hNew : Tidbitmap.isLossy find' q = chunk.words.getLsbD (q % pagesPerChunk) := by
      unfold Tidbitmap.isLossy
      rw [h.find', if_pos hSame]
      simp [h.ischunk]
    rw [hNew, h.bits, hBit, ← hSame, chunkBit_eq]
    cases Tidbitmap.isLossy find q <;> cases decide (q = p) <;> simp
  · obtain ⟨hHead, hNotP, hNotHead⟩ := ne_of_chunk hSame
    unfold Tidbitmap.isLossy
    rw [h.find', if_neg hSame, if_neg hHead]
    simp [hNotP, hNotHead]

theorem Marks.regular (hReg : Regular find) : Regular find' := by
  constructor
  · intro k e he hChunk
    rw [h.find'] at he
    split at he
    · next hk =>
      injection he with he
      subst he
      refine ⟨by rw [hk]; exact mod_chunkOf p, fun i hi => ?_⟩
      rw [h.bits, Bool.or_eq_true, decide_eq_true_iff] at hi
      rcases hi with hi | hi
      · unfold chunkBit at hi
        cases hFind : find (chunkOf p) with
        | none =>
          rw [hFind] at hi
          cases hi
        | some e₀ =>
          simp only [hFind] at hi
          split at hi
          · next hOld => exact (hReg.chunk _ e₀ hFind hOld).2 i hi
          · have hZero : i = 0 := by simpa using hi
            rw [hZero]
            decide
      · rw [hi]
        exact Nat.mod_lt p (by decide)
    · split at he
      · cases he
      · exact hReg.chunk k e he hChunk
  · intro k e he hExact
    rw [h.find'] at he
    split at he
    · injection he with he
      rw [← he, h.ischunk] at hExact
      cases hExact
    · next hHead =>
      split at he
      · cases he
      · next hp => simp [h.isLossy, hReg.disjoint k e he hExact, hp, hHead]

/-- What the entries say after a page is made lossy. -/
theorem Marks.pageOf (q : BlockNumber) :
    pageOf find' q =
      if q = p ∨ (q = chunkOf p ∧ isExact find q) then .lossy else pageOf find q := by
  unfold Tidbitmap.pageOf
  rw [h.isLossy]
  by_cases hMarked : q = p ∨ (q = chunkOf p ∧ isExact find q)
  · rw [if_pos hMarked, if_pos (by simp; tauto)]
  · obtain ⟨hp, hNot⟩ := not_or.mp hMarked
    rw [if_neg hMarked, h.find']
    by_cases hHead : q = chunkOf p
    · have hExact : isExact find q = false := by simpa [hHead] using hNot
      rw [if_pos hHead]
      simp only [hp, hExact, h.ischunk, decide_false, Bool.and_false, Bool.or_false]
      unfold isExact at hExact
      cases hFind : find q with
      | none => rfl
      | some e =>
        rw [hFind] at hExact
        simp [show e.ischunk by simpa using hExact]
    · simp [hp, hHead]

end Marks

/-! ## Changing the entry of a page -/

/-- The entries after the entry of a page is created, if there is none, and changed. An
entry that is a chunk gets the bit of its first page. -/
structure Puts (find find' : BlockNumber → Option PagetableEntry) (p : BlockNumber)
    (old new : PagetableEntry) : Prop where
  found : (find p).getD (newEntry p) = old
  ischunk : new.ischunk = old.ischunk
  bits : old.ischunk = true → ∀ i, new.words.getLsbD i = (old.words.getLsbD i || decide (i = 0))
  find' : ∀ k, find' k = if k = p then some new else find k

section Puts

variable {find find' : BlockNumber → Option PagetableEntry} {p : BlockNumber}
  {old new : PagetableEntry}

theorem Puts.eq_of_ischunk (h : Puts find find' p old new) (hChunk : old.ischunk) :
    find p = some old := by
  have hOld := h.found
  cases hFind : find p with
  | none =>
    rw [hFind] at hOld
    rw [← hOld] at hChunk
    cases hChunk
  | some e =>
    rw [hFind] at hOld
    exact congrArg some hOld

theorem Puts.isLossy (hReg : Regular find) (h : Puts find find' p old new) (q : BlockNumber) :
    isLossy find' q = (isLossy find q || (decide (q = p) && old.ischunk)) := by
  unfold Tidbitmap.isLossy
  rw [h.find']
  split_ifs with hHead
  · have hOld := h.found
    rw [hHead]
    cases hChunk : old.ischunk with
    | true =>
      have hBit : (decide (q % pagesPerChunk = 0)) = decide (q = p) := by
        rw [decide_eq_decide, ← hHead]
        exact mod_eq_zero_iff
      rw [h.eq_of_ischunk hChunk]
      simp only [h.ischunk, hChunk, h.bits hChunk, hBit, Bool.true_and, Bool.and_true]
    | false =>
      cases hFind : find p with
      | none => simp [h.ischunk, hChunk]
      | some e =>
        rw [hFind] at hOld
        have hExact : e.ischunk = false := by
          rw [show e = old from hOld]
          exact hChunk
        simp [h.ischunk, hChunk, hExact]
  · -- A chunk under `p` would start at `p`, so `q` is not its first page.
    have hNot : (decide (q = p) && old.ischunk) = false := by
      by_contra hBoth
      rw [Bool.not_eq_false, Bool.and_eq_true, decide_eq_true_iff] at hBoth
      have hMod := (hReg.chunk p old (h.eq_of_ischunk hBoth.2) hBoth.2).1
      rw [hBoth.1] at hHead
      exact hHead (chunkOf_of_mod hMod)
    rw [hNot, Bool.or_false]

variable (hReg : Regular find) (hFree : Tidbitmap.isLossy find p = false)
  (h : Puts find find' p old new)
include hReg hFree h

theorem Puts.regular : Regular find' := by
  constructor
  · intro k e he hChunk
    rw [h.find'] at he
    split at he
    · next hk =>
      injection he with he
      subst he
      have hOld : old.ischunk := h.ischunk.symm.trans hChunk
      obtain ⟨hMod, hBits⟩ := hReg.chunk p old (h.eq_of_ischunk hOld) hOld
      refine ⟨by rw [hk]; exact hMod, fun i hi => ?_⟩
      rw [h.bits hOld, Bool.or_eq_true, decide_eq_true_iff] at hi
      rcases hi with hi | hi
      · exact hBits i hi
      · rw [hi]
        decide
    · exact hReg.chunk k e he hChunk
  · intro k e he hExact
    rw [h.find'] at he
    rw [h.isLossy hReg]
    split at he
    · next hk =>
      injection he with he
      have hOld : old.ischunk = false := by
        rw [← h.ischunk, he]
        exact hExact
      rw [hk, hFree, hOld]
      simp
    · next hk => simp [hReg.disjoint k e he hExact, hk]

/-- What the entries say after an entry is put. -/
theorem Puts.pageOf (q : BlockNumber) :
    pageOf find' q =
      if q = p then if old.ischunk then .lossy else .exact new.recheck new.words
      else pageOf find q := by
  unfold Tidbitmap.pageOf
  rw [h.isLossy hReg, h.find']
  by_cases hq : q = p
  · subst hq
    cases hChunk : old.ischunk with
    | true => simp
    | false => simp [hFree, h.ischunk, hChunk]
  · simp [hq]

end Puts

/-- The entry that `updateEntry` leaves. -/
def updated (words : PagetableEntry → BitVec nbits) (recheck : PagetableEntry → Bool)
    (e : PagetableEntry) : PagetableEntry := { e with words := words e, recheck := recheck e }

/-- One entry of a bitmap was created or changed. -/
structure Changed (t t' : TIDBitmap) (p : BlockNumber) (new : PagetableEntry) : Prop where
  counted : Counted t'
  single : t'.status ≠ .hash → ∀ e ∈ t'.entries, e.ischunk = false
  limit : t'.maxentries = t.maxentries
  lookup : ∀ k, t'.lookup k = if k = p then some new else t.lookup k

section GetPageentry

variable {t t' : TIDBitmap} {p : BlockNumber} {words : PagetableEntry → BitVec nbits}
  {recheck : PagetableEntry → Bool}

theorem Changed.onePage {e : PagetableEntry} (hStatus : t'.status = .onePage)
    (hEntry : t'.entry1 = e) (hExact : e.ischunk = false)
    (hCounts : Counts (t'.nentries - 1) (t'.npages - 1) t'.nchunks [])
    (hLimit : t'.maxentries = t.maxentries)
    (hOthers : ∀ k, k ≠ e.blockno → t.lookup k = none) : Changed t t' e.blockno e := by
  have hEntries : t'.entries = [e] := by
    unfold TIDBitmap.entries
    rw [hStatus, ← hEntry]
  refine ⟨?_, fun _ e' he' => ?_, hLimit, fun k => ?_⟩
  · unfold Counted
    rw [hEntries, counts_cons, hExact]
    exact hCounts
  · rw [hEntries, mem_singleton] at he'
    rw [he']
    exact hExact
  · unfold TIDBitmap.lookup
    simp only [hStatus, hEntry]
    by_cases hk : k = e.blockno
    · rw [if_pos hk, if_pos hk.symm]
    · rw [if_neg hk, if_neg (fun hEq => hk hEq.symm)]
      exact (hOthers k hk).symm

theorem Stored.changed {t₀ : TIDBitmap} (hStored : Stored t₀)
    (hFind : t₀.pagetable.get? = t.lookup) (hLimit : t₀.maxentries = t.maxentries) :
    Changed t ((t₀.enterPage p).updateEntry p words recheck) p
      (updated words recheck ((t.lookup p).getD (newEntry p))) := by
  obtain ⟨hStored₁, hFind₁⟩ := hStored.enterPage p
  obtain ⟨hStored₂, hFind₂⟩ := hStored₁.updateEntry p words recheck
  refine ⟨?_, fun hNot => absurd hStored₂.status hNot, ?_, fun k => ?_⟩
  · unfold Counted
    rw [entries_of_hash hStored₂.status]
    exact hStored₂.counts
  · rw [maxentries_updateEntry, maxentries_enterPage, hLimit]
  · rw [lookup_of_hash hStored₂.status, hFind₂, hFind₁, hFind]
    by_cases hk : k = p
    · rw [if_pos hk, if_pos hk, if_pos hk]
      rfl
    · rw [if_neg hk, if_neg hk, if_neg hk]

/-- `tbm_get_pageentry` and a change of the entry. -/
theorem Inv.getPageentry (h : Inv t) (p : BlockNumber) (words : PagetableEntry → BitVec nbits)
    (recheck : PagetableEntry → Bool) :
    Changed t ((t.tbmGetPageentry p).updateEntry p words recheck) p
      (updated words recheck ((t.lookup p).getD (newEntry p))) := by
  have hCounts : Counts t.nentries t.npages t.nchunks t.entries := h.counted
  unfold TIDBitmap.tbmGetPageentry
  cases hStatus : t.status with
  | empty =>
    have hNone : ∀ k, t.lookup k = none := by
      intro k
      unfold TIDBitmap.lookup
      rw [hStatus]
    simp only [TIDBitmap.entries, hStatus] at hCounts
    rw [hNone p]
    refine Changed.onePage rfl rfl rfl ?_ rfl fun k _ => hNone k
    simpa [TIDBitmap.updateEntry] using hCounts
  | onePage =>
    split_ifs with hSame
    · obtain ⟨hExact, hLookup, hCounts⟩ := h.onePage hStatus
      rw [hLookup p, if_pos hSame, ← hSame]
      refine Changed.onePage (e := updated words recheck t.entry1) ?_ ?_ hExact ?_ ?_ fun k hk => ?_
      · simp [TIDBitmap.updateEntry, hStatus]
      · simp [TIDBitmap.updateEntry, hStatus, updated]
      · simpa [TIDBitmap.updateEntry, hStatus] using hCounts
      · exact maxentries_updateEntry _ _ _ _
      · rw [hLookup, if_neg (fun hEq => hk hEq.symm)]
    · have hCreate := h.createPagetable (by rw [hStatus]; decide)
      exact hCreate.1.changed hCreate.2 rfl
  | hash => exact (h.stored hStatus).changed (lookup_of_hash hStatus).symm rfl

end GetPageentry

/-- A changed entry of a page that is not lossy keeps the invariant. -/
theorem Changed.inv {t' : TIDBitmap} {p : BlockNumber} {old new : PagetableEntry}
    (h : Inv t) (hChanged : Changed t t' p new) (hFree : isLossy t.lookup p = false)
    (hPuts : Puts t.lookup t'.lookup p old new) : Inv t' :=
  ⟨hPuts.regular h.regular hFree, hChanged.counted, hChanged.single,
    by rw [hChanged.limit]; exact h.limit⟩

end PgTuning.Tidbitmap
