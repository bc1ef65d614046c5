import PgTuning.Lib.Memory

/-!
# Page layout

The page operations of `bufpage.c`. A page is a header and one block of bytes. The
line pointers grow from the header upwards and the items from the special space
downwards, in the same block: a line pointer is four of its bytes. `none` stands for
an error that is raised; the addresses are offsets from the start of the page.
-/

namespace PgTuning.Bufpage

open PgTuning.Lib List

def blcksz : Nat := 8192

def sizeOfPageHeaderData : Nat := 24

def sizeOfItemIdData : Nat := 4

def maxHeapTuplesPerPage : Nat := 291

def invalidOffsetNumber : Nat := 0

def maxOffsetNumber : Nat := blcksz / sizeOfItemIdData

/-- `MAXALIGN`, for an alignment of eight. -/
def maxalign (n : Nat) : Nat := (n + 7) / 8 * 8

/-- The conversion of an unsigned value to a 32-bit `int`. -/
def toInt (n : Nat) : Int := (BitVec.ofNat 32 n).toInt

abbrev Block := Nat → UInt8

/-! ## Line pointers -/

inductive LpFlags where
  | unused
  | normal
  | redirect
  | dead
  deriving DecidableEq

def LpFlags.code : LpFlags → Nat
  | .unused => 0
  | .normal => 1
  | .redirect => 2
  | .dead => 3

def LpFlags.decode (n : Nat) : LpFlags :=
  if n = 0 then .unused else if n = 1 then .normal else if n = 2 then .redirect else .dead

instance neZero_lp : NeZero 32768 := ⟨by decide⟩

/-- A line pointer, with its bit fields. -/
structure ItemIdData where
  lpOff : Fin 32768
  lpFlags : LpFlags
  lpLen : Fin 32768

def ItemIdData.isUsed (lp : ItemIdData) : Bool := lp.lpFlags != .unused

def ItemIdData.hasStorage (lp : ItemIdData) : Bool := lp.lpLen.val != 0

/-- The four bytes of a line pointer. -/
def ItemIdData.bytes (lp : ItemIdData) : List UInt8 :=
  let word := lp.lpOff.val + 32768 * lp.lpFlags.code + 131072 * lp.lpLen.val
  [.ofNat word, .ofNat (word / 256), .ofNat (word / 65536), .ofNat (word / 16777216)]

variable (block : Block)

def itemIdAt (addr : Nat) : ItemIdData :=
  let word := (block addr).toNat + 256 * (block (addr + 1)).toNat +
    65536 * (block (addr + 2)).toNat + 16777216 * (block (addr + 3)).toNat
  ⟨Fin.ofNat _ word, .decode (word / 32768 % 4), Fin.ofNat _ (word / 131072)⟩

/-- The address of `pd_linp[offsetNumber - 1]`. -/
def linpAddr (offsetNumber : Nat) : Nat :=
  sizeOfPageHeaderData + sizeOfItemIdData * (offsetNumber - 1)

/-- `PageGetItemId`, on the bytes of a page. -/
def getItemId (offsetNumber : Nat) : ItemIdData :=
  itemIdAt block (linpAddr offsetNumber)

def setItemId (offsetNumber : Nat) (lp : ItemIdData) : Block :=
  Memory.store block (linpAddr offsetNumber) lp.bytes

def unusedItemId : ItemIdData := ⟨0, .unused, 0⟩

/-! ## Pages -/

structure Page where
  hasFreeLines : Bool
  pdLower : Nat
  pdUpper : Nat
  pdSpecial : Nat
  block : Block

namespace Page

def itemId (p : Page) (offsetNumber : Nat) : ItemIdData := getItemId p.block offsetNumber

def pageGetMaxOffsetNumber (p : Page) : Nat :=
  if p.pdLower ≤ sizeOfPageHeaderData then 0
  else (p.pdLower - sizeOfPageHeaderData) / sizeOfItemIdData

/-- The check for corrupted page pointers. -/
def corrupted (p : Page) : Prop :=
  p.pdLower < sizeOfPageHeaderData ∨ p.pdLower > p.pdUpper ∨ p.pdUpper > p.pdSpecial ∨
    p.pdSpecial > blcksz

instance (p : Page) : Decidable p.corrupted := by unfold corrupted; infer_instance

def pageInit (specialSize : Nat) : Page where
  hasFreeLines := false
  pdLower := sizeOfPageHeaderData
  pdUpper := blcksz - maxalign specialSize
  pdSpecial := blcksz - maxalign specialSize
  block := fun _ => 0

/-! ## `PageAddItem` -/

/-- The first line pointer below `limit` that is unused and has no storage, or `limit`. -/
def freeSlot (p : Page) (limit : Nat) : Nat :=
  ((range' 1 (limit - 1)).find? fun n =>
    !(p.itemId n).isUsed && !(p.itemId n).hasStorage).getD limit

/-- The offset number for a new item and whether line pointers have to move, with the
page since the hint may be reset; `none` when a used item would be overwritten. -/
def selectOffset (p : Page) (limit offsetNumber : Nat) (overwrite : Bool) :
    Option (Page × Nat × Bool) :=
  if offsetNumber ≠ invalidOffsetNumber ∧ offsetNumber ≤ maxOffsetNumber then
    if overwrite then
      if offsetNumber < limit ∧
          ((p.itemId offsetNumber).isUsed || (p.itemId offsetNumber).hasStorage) then none
      else some (p, offsetNumber, false)
    else some (p, offsetNumber, offsetNumber < limit)
  else if p.hasFreeLines then
    let offsetNumber := p.freeSlot limit
    if offsetNumber ≥ limit then some ({ p with hasFreeLines := false }, offsetNumber, false)
    else some (p, offsetNumber, false)
  else some (p, limit, false)

/-- The rest of `PageAddItem`, with the offset number chosen: check that the item fits,
shuffle the line pointers if needed and store the item. -/
def placeItem (p : Page) (item : List UInt8) (limit offsetNumber : Nat)
    (needshuffle isHeap : Bool) : Page × Nat :=
  if offsetNumber > limit then (p, invalidOffsetNumber)
  else if isHeap ∧ offsetNumber > maxHeapTuplesPerPage then (p, invalidOffsetNumber)
  else
    let lower :=
      if offsetNumber = limit ∨ needshuffle then p.pdLower + sizeOfItemIdData else p.pdLower
    let alignedSize := maxalign item.length
    let upper := (p.pdUpper : Int) - toInt alignedSize
    if (lower : Int) > upper then (p, invalidOffsetNumber)
    else
      let upper := upper.toNat
      let block :=
        if needshuffle then
          Memory.move p.block (linpAddr offsetNumber + sizeOfItemIdData) (linpAddr offsetNumber)
            ((limit - offsetNumber) * sizeOfItemIdData)
        else p.block
      let block :=
        setItemId block offsetNumber ⟨Fin.ofNat _ upper, .normal, Fin.ofNat _ item.length⟩
      let block := Memory.store block upper item
      ({ p with block := block, pdLower := lower, pdUpper := upper }, offsetNumber)

def pageAddItem (p : Page) (item : List UInt8) (offsetNumber : Nat) (overwrite isHeap : Bool) :
    Option (Page × Nat) :=
  if p.corrupted then none
  else
    let limit := p.pageGetMaxOffsetNumber + 1
    match p.selectOffset limit offsetNumber overwrite with
    | none => some (p, invalidOffsetNumber)
    | some (p, offsetNumber, needshuffle) =>
      some (p.placeItem item limit offsetNumber needshuffle isHeap)

end Page

/-! ## Compaction -/

/-- An item that is going to be moved. -/
structure ItemIdSortData where
  offsetindex : Nat
  itemoff : Nat
  olditemid : ItemIdData
  alignedlen : Nat

/-- Sort into decreasing `itemoff` order (`itemoffcompare`). -/
def sortItems (items : List ItemIdSortData) : List ItemIdSortData :=
  items.mergeSort fun a b => b.itemoff ≤ a.itemoff

def totallen (items : List ItemIdSortData) : Nat := (items.map ItemIdSortData.alignedlen).sum

/-- The loop that moves the items up and sets their line pointers; `old` is the line
pointer whose offset is changed. -/
def compactify (old : Block → ItemIdSortData → ItemIdData) (pdSpecial : Nat) (block : Block)
    (items : List ItemIdSortData) : Nat × Block :=
  Memory.stackSegs ItemIdSortData.itemoff ItemIdSortData.alignedlen
    (fun item upper block => setItemId block (item.offsetindex + 1)
      { old block item with lpOff := Fin.ofNat _ upper }) pdSpecial block items

namespace Page

/-- The first loop of `PageRepairFragmentation`: unused line pointers are reset. -/
def resetUnused (nline : Nat) : Block :=
  (range' 1 nline).foldl (fun block n =>
    if (getItemId block n).isUsed then block else setItemId block n unusedItemId) block

/-- The items that `PageRepairFragmentation` moves; `olditemid` is not set there. -/
def repairItems (nline : Nat) : List ItemIdSortData :=
  (range nline).filterMap fun i =>
    let lp := getItemId block (i + 1)
    if lp.hasStorage then some ⟨i, lp.lpOff, unusedItemId, maxalign lp.lpLen⟩ else none

def pageRepairFragmentation (p : Page) : Option Page :=
  if p.corrupted ∨ p.pdSpecial ≠ maxalign p.pdSpecial then none
  else
    let nline := p.pageGetMaxOffsetNumber
    let offsets := range' 1 nline
    let nstorage := offsets.countP fun n => (p.itemId n).isUsed && (p.itemId n).hasStorage
    let nunused := offsets.countP fun n => !(p.itemId n).isUsed
    let block := resetUnused p.block nline
    let hint := decide (nunused > 0)
    if nstorage = 0 then
      some { p with block := block, pdUpper := p.pdSpecial, hasFreeLines := hint }
    else
      let items := repairItems block nline
      if ∃ item ∈ items, item.itemoff < p.pdUpper ∨ item.itemoff ≥ p.pdSpecial then none
      else if totallen items > p.pdSpecial - p.pdLower then none
      else
        let (upper, block) := compactify (fun block item => getItemId block (item.offsetindex + 1))
          p.pdSpecial block (sortItems items)
        some { p with block := block, pdUpper := upper, hasFreeLines := hint }

/-! ## Deleting index tuples -/

/-- The last loop of `PageIndexTupleDelete`: the items before the deleted one moved. -/
def adjustLinps (nline offset size : Nat) : Block :=
  (range' 1 nline).foldl (fun block n =>
    let lp := getItemId block n
    if lp.lpOff ≤ offset then setItemId block n { lp with lpOff := Fin.ofNat _ (lp.lpOff + size) }
    else block) block

def pageIndexTupleDelete (p : Page) (offnum : Nat) : Option Page :=
  if p.corrupted then none
  else
    let nline := p.pageGetMaxOffsetNumber
    if offnum = 0 ∨ offnum > nline then none
    else
      let tup := p.itemId offnum
      let size := tup.lpLen.val
      let offset := tup.lpOff.val
      if offset < p.pdUpper ∨ offset + size > p.pdSpecial ∨ offset ≠ maxalign offset ∨
          size ≠ maxalign size then none
      else
        let nbytes := p.pdLower - linpAddr (offnum + 1)
        let block :=
          if nbytes > 0 then Memory.move p.block (linpAddr offnum) (linpAddr (offnum + 1)) nbytes
          else p.block
        let block :=
          if offset > p.pdUpper then Memory.move block (p.pdUpper + size) p.pdUpper (offset - p.pdUpper)
          else block
        let pdLower := p.pdLower - sizeOfItemIdData
        let block :=
          if pdLower ≤ sizeOfPageHeaderData then block else adjustLinps block (nline - 1) offset size
        some { p with block := block, pdUpper := p.pdUpper + size, pdLower := pdLower }

/-- The scan of `PageIndexMultiDelete`: the items to keep, and the item numbers that
were not met. -/
def keepItems (p : Page) : List Nat → List Nat → Nat → Option (List ItemIdSortData × List Nat)
  | [], itemnos, _ => some ([], itemnos)
  | offnum :: rest, itemnos, nused =>
    let lp := p.itemId offnum
    let size := lp.lpLen.val
    let offset := lp.lpOff.val
    if offset < p.pdUpper ∨ offset + size > p.pdSpecial ∨ offset ≠ maxalign offset then none
    else if itemnos.head? = some offnum then p.keepItems rest itemnos.tail nused
    else
      (p.keepItems rest itemnos (nused + 1)).map fun (items, itemnos) =>
        (⟨nused, offset, lp, maxalign size⟩ :: items, itemnos)

def pageIndexMultiDelete (p : Page) (itemnos : List Nat) : Option Page :=
  if itemnos.length ≤ 2 then itemnos.reverse.foldlM pageIndexTupleDelete p
  else if p.corrupted ∨ p.pdSpecial ≠ maxalign p.pdSpecial then none
  else
    match p.keepItems (range' 1 p.pageGetMaxOffsetNumber) itemnos 0 with
    | none => none
    | some (items, rest) =>
      if rest ≠ [] then none
      else if totallen items > p.pdSpecial - p.pdLower then none
      else
        let (upper, block) := compactify (fun _ item => item.olditemid) p.pdSpecial p.block
          (sortItems items)
        some { p with
          block := block
          pdLower := sizeOfPageHeaderData + items.length * sizeOfItemIdData
          pdUpper := upper }

end Page

end PgTuning.Bufpage
