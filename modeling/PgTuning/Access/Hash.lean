import Mathlib.Data.Rat.Floor

/-!
# Pages of a hash index

`access/hash`: how the metapage numbers the pages of the index (`hash.h`, `hashovfl.c`), how a
bucket split adds bucket pages (`hashpage.c`), and how overflow pages are taken and given back
through bitmap pages that are overflow pages themselves. A process holds the metapage's lock and a
bitmap page's lock in turn, never both, so each of these stretches is a step of its own.
-/

namespace PgTuning.Hash

def invalidBlockNumber : Nat := 0xFFFFFFFF

def hashMaxBitmaps : Nat := 128

def bitsPerMap : Nat := 32

def hashGetMaxBitmapSize : Nat := 8192 - (24 + 16)

/-- `HashMetaPageData`, as far as it decides about pages. -/
structure HashMetaPage where
  bmsize : Nat
  bmshift : Nat
  maxbucket : Nat
  highmask : Nat
  lowmask : Nat
  ovflpoint : Nat
  firstfree : Nat
  nmaps : Nat
  /-- How many overflow pages were allocated up to a splitpoint. -/
  spares : Nat → Nat
  mapp : Nat → Nat

variable (metap : HashMetaPage)

def HashMetaPage.bmpgszBit : Nat := metap.bmsize <<< 3

def HashMetaPage.bmpgMask : Nat := metap.bmpgszBit - 1

/-- The loop of `_hash_log2`. Its numbers are at most 2^31, so `limit` reaches them in time. -/
def hashLog2Loop (num : Nat) : Nat → Nat → Nat → Nat
  | 0, i, _ => i
  | fuel + 1, i, limit => if limit < num then hashLog2Loop num fuel (i + 1) (limit <<< 1) else i

/-- `_hash_log2`: the logarithm rounded up. -/
def hashLog2 (num : Nat) : Nat := hashLog2Loop num 32 0 1

def bucketToBlkno (bucket : Nat) : Nat :=
  bucket + (if bucket ≠ 0 then metap.spares (hashLog2 (bucket + 1) - 1) else 0) + 1

/-- The loop of `bitno_to_blkno`: the splitpoint of the page numbered `ovflbitnum` from one. -/
def splitLoop (metap : HashMetaPage) (ovflbitnum : Nat) : Nat → Nat → Nat
  | 0, i => i
  | fuel + 1, i =>
    if i < metap.ovflpoint ∧ ovflbitnum > metap.spares i then
      splitLoop metap ovflbitnum fuel (i + 1)
    else i

def bitnoToBlkno (ovflbitnum : Nat) : Nat :=
  (1 <<< splitLoop metap (ovflbitnum + 1) metap.ovflpoint 1) + (ovflbitnum + 1)

def bitnoLoop (metap : HashMetaPage) (ovflblkno : Nat) : Nat → Nat → Option Nat
  | 0, _ => none
  | fuel + 1, i =>
    if i ≤ metap.ovflpoint then
      if ovflblkno ≤ 1 <<< i then none
      else if ovflblkno - 1 <<< i ≤ metap.spares i then some (ovflblkno - 1 <<< i - 1)
      else bitnoLoop metap ovflblkno fuel (i + 1)
    else none

/-- `blkno_to_bitno`; no result is the error "invalid overflow block number". -/
def blknoToBitno (ovflblkno : Nat) : Option Nat :=
  bitnoLoop metap ovflblkno metap.ovflpoint 1

/-! ## Bitmap pages -/

abbrev Words := Nat → BitVec 32

def setBit (freep : Words) (n : Nat) : Words :=
  Function.update freep (n / bitsPerMap)
    (freep (n / bitsPerMap) ||| BitVec.twoPow 32 (n % bitsPerMap))

def clrBit (freep : Words) (n : Nat) : Words :=
  Function.update freep (n / bitsPerMap)
    (freep (n / bitsPerMap) &&& ~~~BitVec.twoPow 32 (n % bitsPerMap))

def isSet (freep : Words) (n : Nat) : Bool :=
  (freep (n / bitsPerMap)).getLsbD (n % bitsPerMap)

/-- `_hash_firstfreebit`: the first bit of a word that is not set. -/
def hashFirstfreebit (map : BitVec 32) : Option Nat :=
  (List.range bitsPerMap).find? fun i => !map.getLsbD i

/-- The search of one bitmap page from word `j` on, whose first bit is `bit`: the first word that is
not all ones. -/
def scanWords (freep : Words) (lastInpage : Nat) : Nat → Nat → Nat → Option (Nat × Nat)
  | 0, _, _ => none
  | fuel + 1, j, bit =>
    if bit ≤ lastInpage then
      if freep j ≠ BitVec.allOnes 32 then some (j, bit)
      else scanWords freep lastInpage fuel (j + 1) (bit + bitsPerMap)
    else none

/-! ## The index -/

/-- Where a process stands between two locks. -/
inductive Proc
  | idle
  /-- In `_hash_getovflpage`: about to read a bitmap page. -/
  | searching (origFirstfree i j bit lastInpage : Nat) (mapblkno : Nat)
  /-- The page had no free bit: about to look at the metapage again. -/
  | nextPage (origFirstfree i : Nat)
  /-- A free bit was found and set: about to return its page. -/
  | found (origFirstfree i bit : Nat)
  /-- In `_hash_freeovflpage`: about to clear the page's bit. -/
  | clearing (ovflbitno : Nat) (mapblkno : Nat)
  /-- About to adjust `hashm_firstfree`. -/
  | cleared (ovflbitno : Nat)
  deriving DecidableEq, Repr

structure HashIndex where
  metap : HashMetaPage
  nblocks : Nat
  /-- What the bitmap pages hold, by block number. -/
  bitmaps : Nat → Words
  procs : Nat → Proc
  /-- The overflow pages that buckets have in their chains. -/
  inUse : List Nat

def HashIndex.setProc (s : HashIndex) (p : Nat) (proc : Proc) : HashIndex :=
  { s with procs := Function.update s.procs p proc }

/-- `_hash_getnewbuf`: a page at the end of the file, or one beyond it that an earlier try left. -/
def hashGetnewbuf (blkno : Nat) (s : HashIndex) : Option HashIndex :=
  if blkno = invalidBlockNumber then none
  else if blkno > s.nblocks then none
  else if blkno = s.nblocks then some { s with nblocks := s.nblocks + 1 }
  else some s

/-- `_hash_initbitmap`: a new bitmap page with all bits set. It is written before the check that the
metapage has room for it. -/
def hashInitbitmap (blkno : Nat) (s : HashIndex) : Bool × HashIndex :=
  match hashGetnewbuf blkno s with
  | none => (false, s)
  | some s =>
    let s := { s with
      bitmaps := Function.update s.bitmaps blkno fun _ => BitVec.allOnes 32 }
    if s.metap.nmaps ≥ hashMaxBitmaps then (false, s)
    else (true, { s with metap := { s.metap with
      mapp := Function.update s.metap.mapp s.metap.nmaps blkno
      nmaps := s.metap.nmaps + 1 } })

def HashMetaPage.addSpare : HashMetaPage :=
  { metap with
    spares := Function.update metap.spares metap.ovflpoint (metap.spares metap.ovflpoint + 1) }

/-- The number of initial buckets, for an estimate of tuples over the fill factor. -/
def initialBuckets (dnumbuckets : ℚ) : Nat :=
  if dnumbuckets ≤ 2 then 2
  else if dnumbuckets ≥ 0x40000000 then 0x40000000
  else 1 <<< hashLog2 ⌊dnumbuckets⌋.toNat

def bitmapLog2 (bsize : Nat) : Nat → Nat
  | 0 => 0
  | i + 1 => if 1 <<< (i + 1) ≤ bsize then i + 1 else bitmapLog2 bsize i

/-- `_hash_metapinit`, with the first bitmap page. -/
def hashMetapinit (dnumbuckets : ℚ) : HashIndex :=
  let numBuckets := initialBuckets dnumbuckets
  let log2NumBuckets := hashLog2 numBuckets
  let i := bitmapLog2 hashGetMaxBitmapSize (hashLog2 hashGetMaxBitmapSize)
  (hashInitbitmap (numBuckets + 1) {
    metap := {
      bmsize := 1 <<< i
      bmshift := i + 3
      maxbucket := numBuckets - 1
      lowmask := numBuckets - 1
      highmask := numBuckets <<< 1 - 1
      ovflpoint := log2NumBuckets
      firstfree := 0
      nmaps := 0
      spares := Function.update (fun _ => 0) log2NumBuckets 1
      mapp := fun _ => 0 }
    nblocks := numBuckets + 1
    bitmaps := fun _ _ => 0
    procs := fun _ => .idle
    inUse := [] }).2

/-! ## Overflow pages -/

/-- The end of `_hash_getovflpage` when no page is free: the index gets one more, after one for a new
bitmap if the last bitmap is used up. -/
def extendOvfl (p origFirstfree lastBit : Nat) (s : HashIndex) : HashIndex :=
  let grown :=
    if lastBit = s.metap.bmpgMask then
      let bit := s.metap.spares s.metap.ovflpoint
      let (ok, s) := hashInitbitmap (bitnoToBlkno s.metap bit) s
      (ok, if ok then { s with metap := s.metap.addSpare } else s)
    else (true, s)
  let s := grown.2.setProc p .idle
  if grown.1 then
    let bit := s.metap.spares s.metap.ovflpoint
    let blkno := bitnoToBlkno s.metap bit
    match hashGetnewbuf blkno s with
    | none => s
    | some s =>
      let metap := s.metap.addSpare
      { s with
        metap := if metap.firstfree = origFirstfree then { metap with firstfree := bit + 1 }
          else metap
        inUse := blkno :: s.inUse }
  else s

/-- `_hash_getovflpage` with the metapage locked, about to look at bitmap page `i` from `bit` on. -/
def searchMeta (p origFirstfree i j bit : Nat) (s : HashIndex) : HashIndex :=
  let maxOvflpg := s.metap.spares s.metap.ovflpoint - 1
  let lastPage := maxOvflpg >>> s.metap.bmshift
  let lastBit := maxOvflpg &&& s.metap.bmpgMask
  if i > lastPage then extendOvfl p origFirstfree lastBit s
  else
    s.setProc p <| .searching origFirstfree i j bit
      (if i = lastPage then lastBit else s.metap.bmpgszBit - 1) (s.metap.mapp i)

def hashGetovflpage (p : Nat) (s : HashIndex) : HashIndex :=
  let firstPage := s.metap.firstfree >>> s.metap.bmshift
  let bit := s.metap.firstfree &&& s.metap.bmpgMask
  searchMeta p s.metap.firstfree firstPage (bit / bitsPerMap) (bit / bitsPerMap * bitsPerMap) s

/-- `_hash_getovflpage` with a bitmap page locked. -/
def searchMap (p origFirstfree i j bit lastInpage : Nat) (mapblkno : Nat) (s : HashIndex) :
    HashIndex :=
  let freep := s.bitmaps mapblkno
  match scanWords freep lastInpage (lastInpage + 1) j bit with
  | none => s.setProc p (.nextPage origFirstfree (i + 1))
  | some (j, bit) =>
    match hashFirstfreebit (freep j) with
    | none => s.setProc p .idle
    | some free =>
      { s.setProc p (.found origFirstfree i (bit + free)) with
        bitmaps := Function.update s.bitmaps mapblkno (setBit freep (bit + free)) }

/-- `_hash_getovflpage` with the metapage locked again, about to return the page of `bit`. -/
def returnFound (p origFirstfree i bit : Nat) (s : HashIndex) : HashIndex :=
  let bit := bit + i <<< s.metap.bmshift
  let blkno := bitnoToBlkno s.metap bit
  { s.setProc p .idle with
    metap := if s.metap.firstfree = origFirstfree then { s.metap with firstfree := bit + 1 }
      else s.metap
    inUse := blkno :: s.inUse }

/-- The start of `_hash_freeovflpage`: the page is taken out of its bucket's chain, and its bit is
looked up in the metapage. -/
def hashFreeovflpage (p : Nat) (ovflblkno : Nat) (s : HashIndex) : HashIndex :=
  if ovflblkno ∈ s.inUse then
    let s := { s with inUse := s.inUse.erase ovflblkno }
    match blknoToBitno s.metap ovflblkno with
    | none => s
    | some ovflbitno =>
      let bitmappage := ovflbitno >>> s.metap.bmshift
      if bitmappage ≥ s.metap.nmaps then s
      else s.setProc p (.clearing ovflbitno (s.metap.mapp bitmappage))
  else s

def clearBit (p ovflbitno : Nat) (mapblkno : Nat) (s : HashIndex) : HashIndex :=
  { s.setProc p (.cleared ovflbitno) with
    bitmaps := Function.update s.bitmaps mapblkno
      (clrBit (s.bitmaps mapblkno) (ovflbitno &&& s.metap.bmpgMask)) }

def adjustFirstfree (p ovflbitno : Nat) (s : HashIndex) : HashIndex :=
  { s.setProc p .idle with
    metap := if ovflbitno < s.metap.firstfree then { s.metap with firstfree := ovflbitno }
      else s.metap }

/-! ## Splits -/

/-- `_hash_alloc_buckets`: the file grows to the end of the new splitpoint, unless the block numbers
do not suffice. -/
def hashAllocBuckets (firstblock : Nat) (nblocks : Nat) (s : HashIndex) :
    Option HashIndex :=
  let lastblock := (firstblock + nblocks - 1) % 2 ^ 32
  if lastblock < firstblock ∨ lastblock = invalidBlockNumber then none
  else some { s with nblocks := max s.nblocks (lastblock + 1) }

/-- The bucket mapping with bucket `newBucket` added. -/
def HashMetaPage.setMaxbucket (newBucket : Nat) (metap : HashMetaPage) : HashMetaPage :=
  let metap := { metap with maxbucket := newBucket }
  if newBucket > metap.highmask then
    -- a new doubling starts
    { metap with lowmask := metap.highmask, highmask := newBucket ||| metap.highmask }
  else metap

/-- Overflow pages are created beyond the new splitpoint from now on. -/
def HashMetaPage.setOvflpoint (spareNdx : Nat) (metap : HashMetaPage) : HashMetaPage :=
  if spareNdx > metap.ovflpoint then
    { metap with
      spares := Function.update metap.spares spareNdx (metap.spares metap.ovflpoint)
      ovflpoint := spareNdx }
  else metap

/-- `_hash_expandtable`. Whether the split is needed and its locks are free is left open. -/
def hashExpandtable (needed lockable : Bool) (s : HashIndex) : HashIndex :=
  if !needed then s
  else if s.metap.maxbucket ≥ 0x7FFFFFFE then s
  else if !lockable then s
  else
    let newBucket := s.metap.maxbucket + 1
    let startNblkno := bucketToBlkno s.metap newBucket
    let spareNdx := hashLog2 (newBucket + 1)
    let allocated :=
      if spareNdx > s.metap.ovflpoint then hashAllocBuckets startNblkno newBucket s else some s
    match allocated with
    | none => s
    | some s => { s with metap := (s.metap.setMaxbucket newBucket).setOvflpoint spareNdx }

/-! ## Runs -/

inductive HashEvent
  | split (needed lockable : Bool)
  /-- Process `p` asks for an overflow page. -/
  | getovflpage (p : Nat)
  /-- Process `p` gives an overflow page back. -/
  | freeovflpage (p : Nat) (ovflblkno : Nat)
  | resume (p : Nat)
  deriving DecidableEq, Repr

def hashStep (s : HashIndex) : HashEvent → HashIndex
  | .split needed lockable => hashExpandtable needed lockable s
  | .getovflpage p => if s.procs p = .idle then hashGetovflpage p s else s
  | .freeovflpage p blkno => if s.procs p = .idle then hashFreeovflpage p blkno s else s
  | .resume p =>
    match s.procs p with
    | .idle => s
    | .searching orig i j bit lastInpage mapblkno =>
      searchMap p orig i j bit lastInpage mapblkno s
    | .nextPage orig i => searchMeta p orig i 0 0 s
    | .found orig i bit => returnFound p orig i bit s
    | .clearing ovflbitno mapblkno => clearBit p ovflbitno mapblkno s
    | .cleared ovflbitno => adjustFirstfree p ovflbitno s

end PgTuning.Hash
