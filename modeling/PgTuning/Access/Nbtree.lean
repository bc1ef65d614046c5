import PgTuning.Lib.ThreeWay

/-!
# B-tree pages, their splits, and the descent from the root

`access/nbtree/nbtsearch.c` (`_bt_search`, `_bt_moveright`, `_bt_binsrch`, `_bt_compare`) and
`access/nbtree/nbtinsert.c` (`_bt_split`, `_bt_pgaddtup`, `_bt_newroot`, and the insertion without a
split of `_bt_insertonpg`).

A page keeps its items in the order of their offset numbers, the high key first unless the page is
the rightmost of its level. A reader locks one page at a time, so other backends change the tree
between two page visits and only there: `btSearch` takes the changes before each visit as a
schedule. A visit is the test of `_bt_moveright` and, where the page stays, the choice of
`_bt_binsrch`.

Latches, write-ahead logging and page space are left out; the split point and the place of the new
item are parameters.
-/

namespace PgTuning.Nbtree

open Lib.ThreeWay

/-! ## Comparing a scan key with an item -/

/-- Negation of an `int32`: the least value has none and stays as it is. -/
def negInt32 (result : Int) : Int := if result = -2147483648 then result else -result

/-- An index column: the comparison function of its operator class and its `indoption` bits. -/
structure Column (D : Type) where
  cmp : D → D → Int
  desc : Bool
  nullsFirst : Bool

variable {D : Type}

/-- An attribute of a key; `none` is NULL. -/
abbrev Key (D : Type) := List (Option D)

/-- The comparison of one scan key column with the attribute of an item. The function takes the
item's value first, so its result is negated, except in a descending column. -/
def Column.compare (col : Column D) : Option D → Option D → Int
  | none, none => 0
  | none, some _ => if col.nullsFirst then -1 else 1
  | some _, none => if col.nullsFirst then 1 else -1
  | some argument, some datum =>
    if col.desc then col.cmp datum argument else negInt32 (col.cmp datum argument)

variable (cols : List (Column D))

/-- The comparison of a scan key, which may leave out the last columns, with the key of an item:
the loop of `_bt_compare`. -/
def compareKey (scankey key : Key D) : Int :=
  lexCompare (cols.map Column.compare) scankey key

/-! ## Pages -/

/-- An item of a page. On an internal page the block number of `tid` is the child. -/
structure IndexTuple (D : Type) where
  tid : Nat × Nat
  key : Key D
deriving DecidableEq

/-- The items of a page and its special space: the links to its siblings, its level, and the flags
`P_ISLEAF` and `P_IGNORE` test. -/
structure BTPage (D : Type) where
  items : List (IndexTuple D)
  prev : Nat
  next : Nat
  level : Nat
  leaf : Bool
  ignore : Bool
deriving DecidableEq

def pNone : Nat := 0

def pHikey : Nat := 1

namespace BTPage

def rightmost (page : BTPage D) : Bool := page.next == pNone

/-- `P_FIRSTDATAKEY`: the first item behind the high key, if there is one. -/
def firstDataKey (page : BTPage D) : Nat := if page.rightmost then pHikey else pHikey + 1

def maxOffset (page : BTPage D) : Nat := page.items.length

def item? (page : BTPage D) (offnum : Nat) : Option (IndexTuple D) := page.items[offnum - 1]?

def keyAt (page : BTPage D) (offnum : Nat) : Key D := ((page.item? offnum).map (·.key)).getD []

end BTPage

/-- `_bt_compare`: the first data item of an internal page counts as below every key. -/
def btCompare (scankey : Key D) (page : BTPage D) (offnum : Nat) : Int :=
  if !page.leaf && offnum == page.firstDataKey then 1
  else compareKey cols scankey (page.keyAt offnum)

/-- The least result of a comparison that makes the search go on to the right. -/
def cmpval (nextkey : Bool) : Int := if nextkey then 0 else 1

/-- The loop of `_bt_binsrch` on the offset numbers from `low` up to but not including `high`. -/
def binsrchLoop (goRight : Nat → Bool) : Nat → Nat → Nat → Nat
  | 0, low, _ => low
  | fuel + 1, low, high =>
    if low < high then
      let mid := low + (high - low) / 2
      if goRight mid then binsrchLoop goRight fuel (mid + 1) high
      else binsrchLoop goRight fuel low mid
    else low

/-- `_bt_binsrch`: on a leaf the first item that is not left of the scan key, on an internal page
the last that is. -/
def btBinsrch (scankey : Key D) (nextkey : Bool) (page : BTPage D) : Nat :=
  let low := page.firstDataKey
  let high := page.maxOffset
  if high < low then low
  else
    let high := high + 1
    let goRight := fun mid => decide (cmpval nextkey ≤ btCompare cols scankey page mid)
    let low := binsrchLoop goRight (high - low) low high
    if page.leaf then low else low - 1

/-! ## The descent -/

/-- The pages of an index by block number. Block 0 is the metapage, which is not one of them. -/
abbrev Tree (D : Type) := Nat → Option (BTPage D)

/-- An entry of the stack a descent leaves for a later insertion: the parent page, the offset
number of the downlink followed, and its child. -/
structure BTStackData where
  blkno : Nat
  offset : Nat
  child : Nat
deriving DecidableEq

inductive Visit where
  | moveRight (blkno : Nat)
  | descend (offset child : Nat)
  | found
  | error
deriving DecidableEq

/-- The visit of a page: `_bt_moveright` steps to the right sibling while the page is to be ignored
or its high key is left of the scan key; else a leaf ends the descent, and on an internal page
`_bt_binsrch` chooses the downlink. -/
def visit (scankey : Key D) (nextkey : Bool) (page : BTPage D) : Visit :=
  if !page.rightmost &&
      (page.ignore || decide (cmpval nextkey ≤ btCompare cols scankey page pHikey)) then
    .moveRight page.next
  else if page.ignore then
    -- elog(ERROR, "fell off the end of index")
    .error
  else if page.leaf then .found
  else
    let offnum := btBinsrch cols scankey nextkey page
    match page.item? offnum with
    | some itup => .descend offnum itup.tid.1
    | none => .error

/-! ## What other backends do to the tree -/

/-- `_bt_pgaddtup` over the data items of a page: the first one of an internal page loses its
key. -/
def pgaddtup (leaf : Bool) : List (IndexTuple D) → List (IndexTuple D)
  | [] => []
  | itup :: rest => if leaf then itup :: rest else { itup with key := [] } :: rest

/-- The loop of `_bt_split` that sends the data items from offset number `i` on, and the new item,
to the left and to the right page. -/
def splitItems (firstright newitemoff : Nat) (newitem : IndexTuple D) (newitemonleft : Bool) :
    Nat → List (IndexTuple D) → List (IndexTuple D) × List (IndexTuple D)
  | i, [] => if i ≤ newitemoff then ([], [newitem]) else ([], [])
  | i, item :: rest =>
    let (left, right) := splitItems firstright newitemoff newitem newitemonleft (i + 1) rest
    let (left, right) := if i < firstright then (item :: left, right) else (left, item :: right)
    if i = newitemoff then
      if newitemonleft then (newitem :: left, right) else (left, newitem :: right)
    else (left, right)

/-- The items of a page behind its high key. -/
def BTPage.dataItems (page : BTPage D) : List (IndexTuple D) :=
  page.items.drop (page.firstDataKey - 1)

/-- The high key of a page, as a list because the rightmost page has none. -/
def BTPage.hikeyItem (page : BTPage D) : List (IndexTuple D) :=
  page.items.take (page.firstDataKey - 1)

/-- The high key of the left page after a split: the first item that goes to the right page. -/
def splitHikey (page : BTPage D) (firstright newitemoff : Nat) (newitem : IndexTuple D)
    (newitemonleft : Bool) : List (IndexTuple D) :=
  if !newitemonleft && newitemoff == firstright then [newitem]
  else (page.item? firstright).toList

/-- The left page after a split of `page`; it keeps the block number. -/
def leftHalf (page : BTPage D) (rightblk firstright newitemoff : Nat) (newitem : IndexTuple D)
    (newitemonleft : Bool) : BTPage D :=
  let halves := splitItems firstright newitemoff newitem newitemonleft page.firstDataKey
    page.dataItems
  { page with
    items := splitHikey page firstright newitemoff newitem newitemonleft
      ++ pgaddtup page.leaf halves.1
    next := rightblk }

/-- The new page to the right of it, which takes over the old high key. -/
def rightHalf (page : BTPage D) (blk firstright newitemoff : Nat) (newitem : IndexTuple D)
    (newitemonleft : Bool) : BTPage D :=
  let halves := splitItems firstright newitemoff newitem newitemonleft page.firstDataKey
    page.dataItems
  { page with
    items := page.hikeyItem ++ pgaddtup page.leaf halves.2
    prev := blk }

variable (tree : Tree D)

def Tree.set (blk : Nat) (page : BTPage D) : Tree D :=
  fun other => if other = blk then some page else tree other

/-- `_bt_split` of the page `blk`, with `rightblk` as the new page; `none` is the error that the
right sibling's left-link does not match. -/
def btSplit (blk rightblk firstright newitemoff : Nat) (newitem : IndexTuple D)
    (newitemonleft : Bool) : Option (Tree D) := do
  let page ← tree blk
  let halves := (tree.set blk (leftHalf page rightblk firstright newitemoff newitem newitemonleft)).set
    rightblk (rightHalf page blk firstright newitemoff newitem newitemonleft)
  if page.rightmost then some halves
  else
    let sibling ← tree page.next
    if sibling.prev = blk then some (halves.set page.next { sibling with prev := rightblk })
    else none

/-- `_bt_insertonpg` where the item fits on the page. -/
def btInsertonpg (blk newitemoff : Nat) (itup : IndexTuple D) : Option (Tree D) := do
  let page ← tree blk
  let data := page.dataItems.insertIdx (newitemoff - page.firstDataKey) itup
  some (tree.set blk { page with items := page.hikeyItem ++
    if newitemoff = page.firstDataKey then pgaddtup page.leaf data else data })

/-- `_bt_newroot`: a page above the two halves of the old root, whose second downlink has the high
key of the left half. -/
def btNewroot (rootblk lbkno rbkno : Nat) : Option (Tree D) := do
  let lpage ← tree lbkno
  some (tree.set rootblk
    { items := [⟨(lbkno, pHikey), []⟩, ⟨(rbkno, pHikey), lpage.keyAt pHikey⟩]
      prev := pNone, next := pNone, level := lpage.level + 1, leaf := false, ignore := false })

/-- A change of the tree by another backend. A page split is one event and the insertion of its
downlink into the parent is another, which may come much later. -/
inductive Event (D : Type) where
  | split (blk rightblk firstright newitemoff : Nat) (newitem : IndexTuple D)
      (newitemonleft : Bool)
  | insert (blk newitemoff : Nat) (itup : IndexTuple D)
  | newroot (rootblk lbkno rbkno : Nat)

def Tree.apply : Event D → Tree D
  | .split blk rightblk firstright newitemoff newitem newitemonleft =>
    (btSplit tree blk rightblk firstright newitemoff newitem newitemonleft).getD tree
  | .insert blk newitemoff itup => (btInsertonpg tree blk newitemoff itup).getD tree
  | .newroot rootblk lbkno rbkno => (btNewroot tree rootblk lbkno rbkno).getD tree

/-- `_bt_search` from the page `blkno` on, in at most the given number of page visits: the stack,
the leaf, and the tree as it is when the leaf is visited. The head of the schedule is what happens
before the first visit. -/
def btSearch (cols : List (Column D)) (scankey : Key D) (nextkey : Bool) :
    Nat → Tree D → Nat → List BTStackData → List (List (Event D)) →
    Option (List BTStackData × Nat × Tree D)
  | 0, _, _, _, _ => none
  | visits + 1, tree, blkno, stack, schedule => do
      let tree := schedule.headD [] |>.foldl Tree.apply tree
      let page ← tree blkno
      match visit cols scankey nextkey page with
      | .moveRight next =>
        btSearch cols scankey nextkey visits tree next stack schedule.tail
      | .descend offset child =>
        btSearch cols scankey nextkey visits tree child (⟨blkno, offset, child⟩ :: stack)
          schedule.tail
      | .found => some (stack, blkno, tree)
      | .error => none

end PgTuning.Nbtree
