import Mathlib.Data.List.Sort
import PgTuning.Lib.Table

/-!
# TID bitmaps

A TID bitmap (`tidbitmap.c`) is a set of tuple identifiers, kept as one entry per heap page. When it
gets too large some pages become lossy: only the page number is remembered, as a bit in an entry for
a chunk of `PAGES_PER_CHUNK` pages. Exact pages and chunks live in one table, under the page number
and the number of the chunk's first page, so an entry for the first page of a chunk is either the
one or the other.

The bitmap words of an entry are one bit vector; its bit `k` is bit `BITNUM(k)` of
`words[WORDNUM(k)]`. The order in which the hash table is scanned is not specified: `scan` gives the
keys in some order. The flag `iterating`, which only asserts look at, is left out.
-/

namespace PgTuning.Tidbitmap

open PgTuning.Lib

/-- `MaxHeapTuplesPerPage` for 8 kB blocks. -/
def maxTuplesPerPage : Nat := 291

def pagesPerChunk : Nat := 256

def bitsPerBitmapword : Nat := 32

def wordsPerPage : Nat := (maxTuplesPerPage - 1) / bitsPerBitmapword + 1

/-- The number of bits in the words of an entry. -/
abbrev nbits : Nat := wordsPerPage * bitsPerBitmapword

abbrev BlockNumber := Nat

abbrev OffsetNumber := Nat

/-- A hash table entry, for an exact page or a chunk. -/
structure PagetableEntry where
  blockno : BlockNumber
  ischunk : Bool
  recheck : Bool
  words : BitVec nbits

inductive TBMStatus where
  | empty
  | onePage
  | hash
  deriving DecidableEq

structure TIDBitmap where
  status : TBMStatus
  pagetable : Table PagetableEntry PagetableEntry.blockno
  nentries : Int
  maxentries : Int
  npages : Int
  nchunks : Int
  entry1 : PagetableEntry

def newEntry (pageno : BlockNumber) : PagetableEntry := ⟨pageno, false, false, 0⟩

def newChunk (pageno : BlockNumber) : PagetableEntry := ⟨pageno, true, false, 0⟩

def setBit (words : BitVec nbits) (k : Nat) : BitVec nbits := words ||| BitVec.twoPow nbits k

/-- The chunk that takes the place of the exact entry of its first page. -/
def asChunk (page : PagetableEntry) : PagetableEntry := ⟨page.blockno, true, false, setBit 0 0⟩

theorem blockno_asChunk (page : PagetableEntry) : (asChunk page).blockno = page.blockno := rfl

/-- The numbers of the bits that are set, in order. -/
def bitsOf (words : BitVec nbits) : List Nat := (List.range nbits).filter words.getLsbD

/-- `tbm_create`; an entry takes 80 bytes with all overhead. -/
def tbmCreate (maxbytes : Nat) : TIDBitmap where
  status := .empty
  pagetable := .empty
  nentries := 0
  maxentries := max (min (maxbytes / 80) 2147483646) 16
  npages := 0
  nchunks := 0
  entry1 := newEntry 0

namespace TIDBitmap

/-! ## Entries -/

def tbmCreatePagetable (t : TIDBitmap) : TIDBitmap :=
  { t with
    pagetable := if t.status = .onePage then Table.empty.insert t.entry1 else .empty
    status := .hash }

/-- `tbm_find_pageentry`: the exact entry of a page. -/
def tbmFindPageentry (t : TIDBitmap) (pageno : BlockNumber) : Option PagetableEntry :=
  if t.nentries = 0 then none
  else if t.status = .onePage then
    if t.entry1.blockno ≠ pageno then none else some t.entry1
  else
    match t.pagetable.get? pageno with
    | none => none
    | some page => if page.ischunk then none else some page

/-- Look up or create an entry in the hash table. -/
def enterPage (t : TIDBitmap) (pageno : BlockNumber) : TIDBitmap :=
  match t.pagetable.get? pageno with
  | some _ => t
  | none =>
    { t with
      pagetable := t.pagetable.insert (newEntry pageno)
      nentries := t.nentries + 1
      npages := t.npages + 1 }

/-- `tbm_get_pageentry`; the entry is then changed with `updateEntry`. -/
def tbmGetPageentry (t : TIDBitmap) (pageno : BlockNumber) : TIDBitmap :=
  match t.status with
  | .empty =>
    { t with
      status := .onePage
      entry1 := newEntry pageno
      nentries := t.nentries + 1
      npages := t.npages + 1 }
  | .onePage =>
    if t.entry1.blockno = pageno then t else t.tbmCreatePagetable.enterPage pageno
  | .hash => t.enterPage pageno

/-- Change the words and the flag of the entry of a page. -/
def updateEntry (t : TIDBitmap) (pageno : BlockNumber)
    (words : PagetableEntry → BitVec nbits) (recheck : PagetableEntry → Bool) : TIDBitmap :=
  let update := fun e : PagetableEntry => { e with words := words e, recheck := recheck e }
  if t.status = .hash then
    { t with pagetable := t.pagetable.modify pageno update fun _ => rfl }
  else { t with entry1 := update t.entry1 }

def tbmPageIsLossy (t : TIDBitmap) (pageno : BlockNumber) : Bool :=
  if t.nchunks = 0 then false
  else
    let bitno := pageno % pagesPerChunk
    match t.pagetable.get? (pageno - bitno) with
    | some page => page.ischunk && page.words.getLsbD bitno
    | none => false

/-- Remove the exact entry of a page from the hash table. -/
def removePage (t : TIDBitmap) (pageno : BlockNumber) : TIDBitmap :=
  match t.pagetable.get? pageno with
  | some _ =>
    { t with
      pagetable := t.pagetable.erase pageno
      nentries := t.nentries - 1
      npages := t.npages - 1 }
  | none => t

/-- Look up or create the entry of a chunk. An exact entry of its first page becomes
the chunk, with that page's bit set. -/
def enterChunk (t : TIDBitmap) (pageno : BlockNumber) : TIDBitmap :=
  match t.pagetable.get? pageno with
  | none =>
    { t with
      pagetable := t.pagetable.insert (newChunk pageno)
      nentries := t.nentries + 1
      nchunks := t.nchunks + 1 }
  | some page =>
    if page.ischunk then t
    else
      { t with
        pagetable := t.pagetable.modify pageno asChunk blockno_asChunk
        nchunks := t.nchunks + 1
        npages := t.npages - 1 }

def tbmMarkPageLossy (t : TIDBitmap) (pageno : BlockNumber) : TIDBitmap :=
  let t := if t.status ≠ .hash then t.tbmCreatePagetable else t
  let bitno := pageno % pagesPerChunk
  let t := if bitno ≠ 0 then t.removePage pageno else t
  let t := t.enterChunk (pageno - bitno)
  t.updateEntry (pageno - bitno) (fun e => setBit e.words bitno) (fun e => e.recheck)

/-- The scan of `tbm_lossify`. -/
def lossifyLoop (t : TIDBitmap) : List BlockNumber → TIDBitmap
  | [] => t
  | k :: ks =>
    match t.pagetable.get? k with
    | none => t.lossifyLoop ks
    | some page =>
      if page.ischunk then t.lossifyLoop ks
      else if page.blockno % pagesPerChunk = 0 then t.lossifyLoop ks
      else
        let t := t.tbmMarkPageLossy page.blockno
        if t.nentries ≤ t.maxentries / 2 then t else t.lossifyLoop ks

variable (scan : TIDBitmap → List BlockNumber)

def tbmLossify (t : TIDBitmap) : TIDBitmap :=
  let t := t.lossifyLoop (scan t)
  if t.nentries > t.maxentries / 2 then
    { t with maxentries := min t.nentries ((2147483647 - 1) / 2) * 2 }
  else t

def limitMemory (t : TIDBitmap) : TIDBitmap :=
  if t.nentries > t.maxentries then t.tbmLossify scan else t

/-! ## Adding tuples and pages -/

/-- One pass of the loop of `tbm_add_tuples`; `none` for the error. -/
def addTuple (recheck : Bool) (t : TIDBitmap) (tid : BlockNumber × OffsetNumber) :
    Option TIDBitmap :=
  let (blk, off) := tid
  if off < 1 ∨ off > maxTuplesPerPage then none
  else if t.tbmPageIsLossy blk then some t
  else
    some (((t.tbmGetPageentry blk).updateEntry blk
      (fun page => setBit page.words (if page.ischunk then 0 else off - 1))
      (fun page => page.recheck || recheck)).limitMemory scan)

def tbmAddTuples (t : TIDBitmap) (tids : List (BlockNumber × OffsetNumber))
    (recheck : Bool) : Option TIDBitmap :=
  tids.foldlM (addTuple scan recheck) t

def tbmAddPage (t : TIDBitmap) (pageno : BlockNumber) : TIDBitmap :=
  (t.tbmMarkPageLossy pageno).limitMemory scan

/-! ## Union and intersection -/

def tbmUnionPage (a : TIDBitmap) (bpage : PagetableEntry) : TIDBitmap :=
  if bpage.ischunk then
    ((bitsOf bpage.words).foldl (fun a k => a.tbmMarkPageLossy (bpage.blockno + k)) a).limitMemory
      scan
  else if a.tbmPageIsLossy bpage.blockno then a
  else
    ((a.tbmGetPageentry bpage.blockno).updateEntry bpage.blockno
      (fun apage => if apage.ischunk then setBit apage.words 0 else apage.words ||| bpage.words)
      (fun apage => if apage.ischunk then apage.recheck else apage.recheck || bpage.recheck)
      ).limitMemory scan

def unionStep (b : TIDBitmap) (a : TIDBitmap) (k : BlockNumber) : TIDBitmap :=
  match b.pagetable.get? k with
  | some bpage => a.tbmUnionPage scan bpage
  | none => a

def tbmUnion (a b : TIDBitmap) : TIDBitmap :=
  if b.nentries = 0 then a
  else if b.status = .onePage then a.tbmUnionPage scan b.entry1
  else (scan b).foldl (unionStep scan b) a

/-- `tbm_intersect_page`: whether the entry is now empty, and the entry. -/
def tbmIntersectPage (apage : PagetableEntry) (b : TIDBitmap) : Bool × PagetableEntry :=
  if apage.ischunk then
    let words := (bitsOf apage.words).foldl (fun neww k =>
      let pg := apage.blockno + k
      if !b.tbmPageIsLossy pg && (b.tbmFindPageentry pg).isNone then
        neww &&& ~~~BitVec.twoPow nbits k
      else neww) apage.words
    (words == 0, { apage with words := words })
  else if b.tbmPageIsLossy apage.blockno then (false, { apage with recheck := true })
  else
    match b.tbmFindPageentry apage.blockno with
    | some bpage =>
      let words := apage.words &&& bpage.words
      (words == 0, { apage with words := words, recheck := apage.recheck || bpage.recheck })
    | none => (true, apage)

def intersectStep (b : TIDBitmap) (a : TIDBitmap) (k : BlockNumber) : TIDBitmap :=
  match a.pagetable.get? k with
  | none => a
  | some apage =>
    let (candelete, apage) := tbmIntersectPage apage b
    if candelete then
      { a with
        pagetable := a.pagetable.erase k
        nchunks := if apage.ischunk then a.nchunks - 1 else a.nchunks
        npages := if apage.ischunk then a.npages else a.npages - 1
        nentries := a.nentries - 1 }
    else a.updateEntry k (fun _ => apage.words) (fun _ => apage.recheck)

def tbmIntersect (a b : TIDBitmap) : TIDBitmap :=
  if a.nentries = 0 then a
  else if a.status = .onePage then
    let (candelete, apage) := tbmIntersectPage a.entry1 b
    if candelete then
      { a with
        entry1 := apage, npages := a.npages - 1, nentries := a.nentries - 1, status := .empty }
    else { a with entry1 := apage }
  else (scan a).foldl (intersectStep b) a

end TIDBitmap

/-! ## Iteration -/

/-- The sorted lists that `tbm_begin_iterate` attaches to a bitmap. -/
structure Lists where
  spages : List PagetableEntry
  schunks : List PagetableEntry

/-- `tbm_begin_iterate`. In the state with a single page the list of pages stands for
`entry1`. -/
def tbmBeginIterate (scan : TIDBitmap → List BlockNumber) (t : TIDBitmap) : Lists :=
  match t.status with
  | .empty => ⟨[], []⟩
  | .onePage => ⟨[t.entry1], []⟩
  | .hash =>
    let entries := (scan t).filterMap t.pagetable.get?
    let sort := fun l : List PagetableEntry => l.mergeSort fun a b => a.blockno ≤ b.blockno
    ⟨sort (entries.filter fun e => !e.ischunk), sort (entries.filter fun e => e.ischunk)⟩

structure TBMIterator where
  spageptr : Nat
  schunkptr : Nat
  schunkbit : Nat

/-- The output for one page; `offsets` is `none` for a lossy page. -/
structure TBMIterateResult where
  blockno : BlockNumber
  offsets : Option (List OffsetNumber)
  recheck : Bool

/-- The next bit of a chunk that is set, from `schunkbit` on. -/
def nextBit (words : BitVec nbits) (schunkbit : Nat) : Option Nat :=
  ((List.range' schunkbit (pagesPerChunk - schunkbit)).find? words.getLsbD)

/-- Advance to the next bit that is set in some chunk. -/
def advance : List PagetableEntry → Nat → Nat → Option (BlockNumber × Nat × Nat)
  | [], _, _ => none
  | chunk :: rest, schunkptr, schunkbit =>
    match nextBit chunk.words schunkbit with
    | some bit => some (chunk.blockno + bit, schunkptr, bit)
    | none => advance rest (schunkptr + 1) 0

def exactResult (page : PagetableEntry) : TBMIterateResult :=
  ⟨page.blockno, some ((bitsOf page.words).map (· + 1)), page.recheck⟩

def lossyResult (pageno : BlockNumber) : TBMIterateResult := ⟨pageno, none, true⟩

/-- `tbm_iterate`: the numerically next page, lossy or exact. -/
def tbmIterate (l : Lists) (it : TBMIterator) : Option (TBMIterateResult × TBMIterator) :=
  match advance (l.schunks.drop it.schunkptr) it.schunkptr it.schunkbit, l.spages[it.spageptr]? with
  | some (chunkBlockno, schunkptr, schunkbit), some page =>
    if chunkBlockno < page.blockno then
      some (lossyResult chunkBlockno, ⟨it.spageptr, schunkptr, schunkbit + 1⟩)
    else some (exactResult page, ⟨it.spageptr + 1, schunkptr, schunkbit⟩)
  | some (chunkBlockno, schunkptr, schunkbit), none =>
    some (lossyResult chunkBlockno, ⟨it.spageptr, schunkptr, schunkbit + 1⟩)
  | none, some page =>
    some (exactResult page, ⟨it.spageptr + 1, l.schunks.length, 0⟩)
  | none, none => none

/-- The outputs of repeated calls, at most `n`, and whether the last call found
nothing more. -/
def tbmIterateAll (l : Lists) : Nat → TBMIterator → List TBMIterateResult × Bool
  | 0, _ => ([], false)
  | n + 1, it =>
    match tbmIterate l it with
    | none => ([], true)
    | some (result, it) =>
      let (results, finished) := tbmIterateAll l n it
      (result :: results, finished)

end PgTuning.Tidbitmap
