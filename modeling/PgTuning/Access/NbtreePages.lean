import Mathlib.Data.List.Pairwise
import PgTuning.Access.Nbtree

/-!
# Sorted pages and what a split makes of them

`KeyLe` is the order of the index on full keys. A page is `Ordered` if its keys are sorted and at
most its high key; the first item of an internal page has no key and is left out (`dataKeys`). A new
item that `Fits` on an ordered page can be put there, or the page can be split around it, and both
halves are ordered, with the high key of the left half between them. Only transitivity of the order
is used.
-/

namespace PgTuning.Nbtree

open Lib.ThreeWay List BTPage Option

variable {D : Type} {col : Column D} {leaf : Bool}

/-! ## The order of keys -/

/-- What the operator class of a column promises: its function compares as an order does, and never
returns the one result that has no negation. -/
structure Column.Lawful (col : Column D) : Prop where
  compares : Lib.ThreeWay.Lawful col.cmp
  negatable : ∀ a b, col.cmp a b ≠ -2147483648

theorem Column.Lawful.compare_some (h : col.Lawful) (a b : D) :
    col.compare (some a) (some b) = if col.desc then col.cmp b a else -col.cmp b a := by
  simp [Column.compare, negInt32, h.negatable]

theorem Column.Lawful.compare_lawful (h : col.Lawful) : Lib.ThreeWay.Lawful col.compare where
  swap a b := by
    cases a with
    | none =>
      cases b with
      | none => simp [Column.compare]
      | some b => simp only [Column.compare]; cases col.nullsFirst <;> decide
    | some a =>
      cases b with
      | none => simp only [Column.compare]; cases col.nullsFirst <;> decide
      | some b =>
        have hSwap := h.compares.swap a b
        have hSwap' := h.compares.swap b a
        rw [h.compare_some, h.compare_some]
        split <;> omega
  trans {a b c} hab hbc := by
    cases a <;> cases b <;> cases c
    case some.some.some a b c =>
      simp only [h.compare_some] at hab hbc ⊢
      split at hab
      case isTrue hDesc =>
        simp only [hDesc] at hbc ⊢
        exact h.compares.trans hbc hab
      case isFalse hDesc =>
        simp only [hDesc] at hbc ⊢
        have hab' := h.compares.nonneg_iff (a := b) (b := a)
        have hbc' := h.compares.nonneg_iff (a := c) (b := b)
        have hac := h.compares.nonneg_iff (a := c) (b := a)
        have hTrans := h.compares.trans (hab'.mp (by omega)) (hbc'.mp (by simpa using hbc))
        simpa using hac.mpr hTrans
    all_goals
      cases hNulls : col.nullsFirst <;> simp_all [Column.compare]

/-- Both keys have all the columns of the index and the first is at most the second. -/
def KeyLe (cols : List (Column D)) (key key' : Key D) : Prop :=
  key.length = cols.length ∧ key'.length = cols.length ∧ compareKey cols key key' ≤ 0

/-- An item that the descent looks for: at least the scan key, or greater than it if `nextkey`. -/
def Wanted (cols : List (Column D)) (scankey : Key D) (nextkey : Bool) (key : Key D) : Prop :=
  if nextkey then compareKey cols scankey key < 0 else compareKey cols scankey key ≤ 0

theorem not_wanted_iff {cols : List (Column D)} {scankey key : Key D} {nextkey : Bool} :
    ¬Wanted cols scankey nextkey key ↔ cmpval nextkey ≤ compareKey cols scankey key := by
  unfold Wanted cmpval
  cases nextkey
  · simp
    omega
  · simp

section Order

variable {cols : List (Column D)} (hCols : ∀ col ∈ cols, col.Lawful)
include hCols

theorem columns_lawful : ∀ cmp ∈ cols.map Column.compare, Lib.ThreeWay.Lawful cmp := by
  intro cmp hMem
  obtain ⟨col, hCol, rfl⟩ := mem_map.mp hMem
  exact (hCols col hCol).compare_lawful

theorem keyLe_trans : IsTrans (Key D) (KeyLe cols) where
  trans _ _ _ hab hbc := ⟨hab.1, hbc.2.1, lexCompare_trans (columns_lawful hCols)
    (by simpa using hab.1) (by simpa using hab.2.1) hab.2.2 hbc.2.2⟩

theorem not_wanted_of_le {scankey a b : Key D} {nextkey : Bool} (hab : KeyLe cols a b)
    (hb : ¬Wanted cols scankey nextkey b) : ¬Wanted cols scankey nextkey a := by
  rw [not_wanted_iff] at hb ⊢
  have hLawful := columns_lawful hCols
  have ha := hab.1.trans (length_map Column.compare).symm
  have hb' := hab.2.1.trans (length_map Column.compare).symm
  cases nextkey with
  | true => exact (lexCompare_mono hLawful _ ha hb' hab.2.2).1 hb
  | false => exact (lexCompare_mono hLawful _ ha hb' hab.2.2).2 hb

end Order

/-! ## The loop of a split -/

section SplitItems

variable {firstright newitemoff : Nat} (newitem : IndexTuple D) {newitemonleft : Bool}

theorem splitItems_past (items : List (IndexTuple D)) {i : Nat} (h : newitemoff < i) :
    splitItems firstright newitemoff newitem newitemonleft i items =
      (items.take (firstright - i), items.drop (firstright - i)) := by
  induction items generalizing i with
  | nil => simp [splitItems, Nat.not_le.mpr h]
  | cons item rest ih =>
    rw [splitItems, ih (by omega)]
    by_cases hLeft : i < firstright
    · have hSub : firstright - i = firstright - (i + 1) + 1 := by omega
      simp [hLeft, Nat.ne_of_gt h, hSub]
    · have hSub : firstright - i = 0 := by omega
      have hSub' : firstright - (i + 1) = 0 := by omega
      simp [hLeft, Nat.ne_of_gt h, hSub, hSub']

/-- The old items with the new one in its place are cut at `firstright`. -/
theorem splitItems_eq (items : List (IndexTuple D)) {i : Nat} (hLow : i ≤ newitemoff)
    (hHigh : newitemoff ≤ i + items.length)
    (hLeft : newitemonleft → newitemoff ≤ firstright ∧ firstright < i + items.length)
    (hRight : newitemonleft = false → firstright ≤ newitemoff) :
    splitItems firstright newitemoff newitem newitemonleft i items =
      (items.insertIdx (newitemoff - i) newitem).splitAt
        (firstright - i + newitemonleft.toNat) := by
  induction items generalizing i with
  | nil =>
    rw [length_nil] at hHigh hLeft
    obtain rfl : newitemoff = i := by omega
    cases newitemonleft with
    | true =>
      have := hLeft rfl
      omega
    | false => simp [splitItems, Nat.sub_eq_zero_of_le (hRight rfl)]
  | cons item rest ih =>
    rw [length_cons] at hHigh hLeft
    by_cases hHere : i = newitemoff
    · subst hHere
      rw [splitItems, splitItems_past newitem rest (Nat.lt_succ_self i)]
      by_cases hCut : i < firstright
      · have hSub : firstright - i = firstright - (i + 1) + 1 := by omega
        cases newitemonleft with
        | true => simp [hCut, hSub]
        | false => exact absurd (hRight rfl) (Nat.not_le.mpr hCut)
      · have hSub : firstright - i = 0 := by omega
        have hSub' : firstright - (i + 1) = 0 := by omega
        cases newitemonleft <;> simp [hCut, hSub, hSub']
    · have hPlace : newitemoff - i = newitemoff - (i + 1) + 1 := by omega
      rw [hPlace, splitItems, ih (by omega) (by omega) fun h => by have := hLeft h; omega]
      by_cases hCut : i < firstright
      · have hSub : firstright - i = firstright - (i + 1) + 1 := by omega
        simp [hHere, hCut, hSub, Nat.add_right_comm _ 1]
      · cases newitemonleft with
        | true =>
          have := hLeft rfl
          omega
        | false =>
          have hSub : firstright - i = 0 := by omega
          have hSub' : firstright - (i + 1) = 0 := by omega
          simp [hHere, hCut, hSub, hSub']

end SplitItems

/-! ## Ordered pages -/

/-- The keys among the data items of a page: the first item of an internal page has none. -/
def keysOf (leaf : Bool) (items : List (IndexTuple D)) : List (Key D) :=
  (if leaf then items else items.tail).map (·.key)

def BTPage.dataKeys (page : BTPage D) : List (Key D) := keysOf page.leaf page.dataItems

def BTPage.hikey? (page : BTPage D) : Option (Key D) := page.hikeyItem.head?.map (·.key)

/-- The data items of a page once a new item is in its place. -/
def BTPage.withItem (page : BTPage D) (newitemoff : Nat) (newitem : IndexTuple D) :
    List (IndexTuple D) :=
  page.dataItems.insertIdx (newitemoff - page.firstDataKey) newitem

theorem keysOf_pgaddtup (leaf : Bool) (items : List (IndexTuple D)) :
    keysOf leaf (pgaddtup leaf items) = keysOf leaf items := by
  cases leaf <;> cases items <;> simp [keysOf, pgaddtup]

/-- Behind a left part that keeps the keyless item, every item of the right part has its key. -/
theorem keysOf_append {left : List (IndexTuple D)} (h : leaf = false → left ≠ [])
    (right : List (IndexTuple D)) :
    keysOf leaf (left ++ right) = keysOf leaf left ++ right.map (·.key) := by
  cases leaf with
  | true => simp [keysOf]
  | false => simp [keysOf, tail_append_of_ne_nil (h rfl)]

theorem mem_keysOf {items : List (IndexTuple D)} {key : Key D}
    (h : key ∈ keysOf leaf items) : ∃ itup ∈ items, itup.key = key := by
  obtain ⟨itup, hMem, rfl⟩ := mem_map.mp h
  cases leaf with
  | true => exact ⟨itup, hMem, rfl⟩
  | false => exact ⟨itup, mem_of_mem_tail hMem, rfl⟩

variable (le : Key D → Key D → Prop)

/-- A live page whose keys are sorted and at most the high key. -/
structure Ordered (page : BTPage D) : Prop where
  live : page.ignore = false
  leaf_iff : page.leaf = true ↔ page.level = 0
  hikey_present : page.rightmost = false → page.items ≠ []
  downlink_present : page.leaf = false → page.dataItems ≠ []
  full : ∀ key ∈ page.dataKeys, le key key
  hikey_full : ∀ hikey, page.hikey? = some hikey → le hikey hikey
  sorted : page.dataKeys.Pairwise le
  le_hikey : ∀ hikey, page.hikey? = some hikey → ∀ key ∈ page.dataKeys, le key hikey

/-- A new item, at its place among the sorted keys of a page. A downlink never becomes the first
item of an internal page. -/
structure Fits (page : BTPage D) (newitemoff : Nat) (newitem : IndexTuple D) : Prop where
  low : page.firstDataKey ≤ newitemoff
  high : newitemoff ≤ page.maxOffset + 1
  internal : page.leaf = false → page.firstDataKey < newitemoff
  full : le newitem.key newitem.key
  sorted : (keysOf page.leaf (page.withItem newitemoff newitem)).Pairwise le
  le_hikey : ∀ hikey, page.hikey? = some hikey → le newitem.key hikey

/-- A split point on the right side of the new item, or on its left, that leaves an internal page
its first item. -/
structure SplitPoint (page : BTPage D) (firstright newitemoff : Nat) (newitemonleft : Bool) :
    Prop where
  low : page.firstDataKey ≤ firstright
  internal : page.leaf = false → page.firstDataKey < firstright
  onleft : newitemonleft = true → newitemoff ≤ firstright ∧ firstright ≤ page.maxOffset
  onright : newitemonleft = false → firstright ≤ newitemoff

variable {le} {page : BTPage D} {firstright newitemoff : Nat} {newitem : IndexTuple D}
  {newitemonleft : Bool}

theorem firstDataKey_pos (page : BTPage D) : 0 < page.firstDataKey := by
  unfold firstDataKey
  split <;> decide

theorem Ordered.firstDataKey_le (h : Ordered le page) : page.firstDataKey ≤ page.maxOffset + 1 := by
  unfold firstDataKey maxOffset
  cases hRight : page.rightmost with
  | true => simp [pHikey]
  | false =>
    have := length_pos_iff.mpr (h.hikey_present hRight)
    simp [pHikey]
    omega

theorem Ordered.length_dataItems (h : Ordered le page) :
    page.firstDataKey + page.dataItems.length = page.maxOffset + 1 := by
  have := h.firstDataKey_le
  have := firstDataKey_pos page
  simp only [dataItems, length_drop]
  unfold maxOffset at *
  omega

theorem item?_eq_dataItems {offnum : Nat} (h : page.firstDataKey ≤ offnum) :
    page.item? offnum = page.dataItems[offnum - page.firstDataKey]? := by
  have := firstDataKey_pos page
  rw [item?, dataItems, getElem?_drop]
  congr 1
  omega

theorem Ordered.hikey?_eq (h : Ordered le page) (hRight : page.rightmost = false) :
    ∃ hikey, page.hikey? = some hikey ∧ hikey = page.keyAt pHikey := by
  obtain ⟨itup, rest, hItems⟩ := exists_cons_of_ne_nil (h.hikey_present hRight)
  refine ⟨itup.key, ?_, ?_⟩ <;>
    simp [hikey?, hikeyItem, firstDataKey, keyAt, item?, hRight,
      hItems, pHikey]

theorem hikey?_eq_none (hRight : page.rightmost) : page.hikey? = none := by
  simp [hikey?, hikeyItem, firstDataKey, hRight, pHikey]

theorem Fits.mem_withItem (hOrd : Ordered le page) (h : Fits le page newitemoff newitem)
    {itup : IndexTuple D} (hMem : itup ∈ page.withItem newitemoff newitem) :
    itup = newitem ∨ itup ∈ page.dataItems := by
  have := hOrd.length_dataItems
  have := h.high
  exact (mem_insertIdx (by omega)).mp hMem

section

variable (h : Fits le page newitemoff newitem)
include h

section

variable (hOrd : Ordered le page)
include hOrd

/-- On an internal page the first item stays first, and behind it stand the old items and the new
one. -/
theorem Fits.withItem_internal (hLeaf : page.leaf = false) :
    ∃ first, page.dataItems.head? = some first ∧
      page.withItem newitemoff newitem = first ::
        page.dataItems.tail.insertIdx (newitemoff - page.firstDataKey - 1) newitem := by
  obtain ⟨first, rest, hData⟩ := exists_cons_of_ne_nil (hOrd.downlink_present hLeaf)
  have hOff := h.internal hLeaf
  rw [withItem, hData,
    show newitemoff - page.firstDataKey = newitemoff - page.firstDataKey - 1 + 1 by omega]
  simp

theorem Fits.mem_tail_withItem (hLeaf : page.leaf = false) {itup : IndexTuple D}
    (hMem : itup ∈ (page.withItem newitemoff newitem).tail) :
    itup = newitem ∨ itup ∈ page.dataItems.tail := by
  obtain ⟨first, -, hItems⟩ := h.withItem_internal hOrd hLeaf
  have := hOrd.length_dataItems
  have := h.high
  rw [hItems] at hMem
  exact (mem_insertIdx (by simp; omega)).mp hMem

theorem Fits.mem_keys
    {key : Key D} (hMem : key ∈ keysOf page.leaf (page.withItem newitemoff newitem)) :
    key = newitem.key ∨ key ∈ page.dataKeys := by
  obtain ⟨itup, hItup, rfl⟩ := mem_map.mp hMem
  cases hLeaf : page.leaf with
  | true =>
    rw [hLeaf] at hItup
    rcases h.mem_withItem hOrd hItup with rfl | hOld
    · exact .inl rfl
    · exact .inr (mem_map.mpr ⟨itup, by simpa [hLeaf] using hOld, rfl⟩)
  | false =>
    rw [hLeaf] at hItup
    rcases h.mem_tail_withItem hOrd hLeaf hItup with rfl | hOld
    · exact .inl rfl
    · exact .inr (mem_map.mpr ⟨itup, by simpa [hLeaf] using hOld, rfl⟩)

theorem Fits.keys_full :
    ∀ key ∈ keysOf page.leaf (page.withItem newitemoff newitem), le key key := by
  intro key hMem
  rcases h.mem_keys hOrd hMem with rfl | hOld
  · exact h.full
  · exact hOrd.full key hOld

theorem Fits.keys_le_hikey :
    ∀ hikey, page.hikey? = some hikey →
      ∀ key ∈ keysOf page.leaf (page.withItem newitemoff newitem), le key hikey := by
  intro hikey hSome key hMem
  rcases h.mem_keys hOrd hMem with rfl | hOld
  · exact h.le_hikey hikey hSome
  · exact hOrd.le_hikey hikey hSome key hOld

end

/-! ## An insertion without a split -/

def BTPage.inserted (page : BTPage D) (newitemoff : Nat) (newitem : IndexTuple D) : BTPage D :=
  { page with items := page.hikeyItem ++ page.withItem newitemoff newitem }

omit h in
theorem Ordered.length_hikeyItem (h : Ordered le page) :
    page.hikeyItem.length = page.firstDataKey - 1 := by
  have := h.firstDataKey_le
  unfold maxOffset at this
  rw [hikeyItem, length_take]
  omega

omit h in
/-- A page that keeps its links and its high key has the items behind it as data items. -/
theorem Ordered.dataItems_eq (h : Ordered le page) (other : BTPage D) (data : List (IndexTuple D))
    (hNext : other.rightmost = page.rightmost) (hItems : other.items = page.hikeyItem ++ data) :
    other.dataItems = data ∧ other.hikeyItem = page.hikeyItem := by
  have hFirst : other.firstDataKey = page.firstDataKey := by simp [firstDataKey, hNext]
  constructor
  · rw [dataItems, hItems, hFirst, drop_left' h.length_hikeyItem]
  · rw [hikeyItem, hItems, hFirst, take_left' h.length_hikeyItem]

omit h in
/-- A page with the links, the flags and the high key of an ordered page is ordered if its data
items are. -/
theorem Ordered.of_data (h : Ordered le page) {other : BTPage D} {data : List (IndexTuple D)}
    (hNext : other.rightmost = page.rightmost) (hLive : other.ignore = page.ignore)
    (hLeaf : other.leaf = page.leaf) (hLevel : other.level = page.level)
    (hItems : other.items = page.hikeyItem ++ data) (hSome : page.leaf = false → data ≠ [])
    (hFull : ∀ key ∈ keysOf page.leaf data, le key key)
    (hSorted : (keysOf page.leaf data).Pairwise le)
    (hBelow : ∀ hikey, page.hikey? = some hikey → ∀ key ∈ keysOf page.leaf data, le key hikey) :
    Ordered le other := by
  obtain ⟨hData, hHikeyItem⟩ := h.dataItems_eq other data hNext hItems
  have hKeys : other.dataKeys = keysOf page.leaf data := by
    rw [dataKeys, hData, hLeaf]
  have hHikey : other.hikey? = page.hikey? := by rw [hikey?, hHikeyItem, hikey?]
  exact {
    live := hLive.trans h.live
    leaf_iff := by rw [hLeaf, hLevel]; exact h.leaf_iff
    hikey_present := by
      intro hRight hNil
      have hLength := h.length_hikeyItem
      rw [hItems, append_eq_nil_iff] at hNil
      rw [hNil.1, firstDataKey, if_neg (by simp [← hNext, hRight])] at hLength
      simp [pHikey] at hLength
    downlink_present := by rw [hLeaf, hData]; exact hSome
    full := by rw [hKeys]; exact hFull
    hikey_full := by rw [hHikey]; exact h.hikey_full
    sorted := by rw [hKeys]; exact hSorted
    le_hikey := by rw [hHikey, hKeys]; exact hBelow }

theorem Fits.withItem_ne_nil (hOrd : Ordered le page) : page.withItem newitemoff newitem ≠ [] := by
  have := hOrd.length_dataItems
  have := h.high
  apply ne_nil_of_length_pos
  rw [withItem, length_insertIdx_of_le_length (by omega)]
  omega

theorem Fits.inserted_ordered (hOrd : Ordered le page) :
    Ordered le (page.inserted newitemoff newitem) :=
  hOrd.of_data rfl rfl rfl rfl rfl (fun _ => h.withItem_ne_nil hOrd) (h.keys_full hOrd) h.sorted
    (h.keys_le_hikey hOrd)

omit h in
theorem Ordered.inserted_data (h : Ordered le page) (newitemoff : Nat) (newitem : IndexTuple D) :
    (page.inserted newitemoff newitem).dataItems = page.withItem newitemoff newitem ∧
      (page.inserted newitemoff newitem).hikey? = page.hikey? := by
  obtain ⟨hData, hHikey⟩ := h.dataItems_eq (page.inserted newitemoff newitem)
    (page.withItem newitemoff newitem) rfl rfl
  exact ⟨hData, by rw [hikey?, hHikey, hikey?]⟩

/-! ## The two halves of a split -/

/-- The left page of a split that leaves it the data items `left`. -/
def BTPage.leftOf (page : BTPage D) (rightblk : Nat) (left : List (IndexTuple D))
    (hikey : IndexTuple D) : BTPage D :=
  { page with
    items := hikey :: pgaddtup page.leaf left
    next := rightblk }

/-- The right page of a split that gives it the data items `right`. -/
def BTPage.rightOf (page : BTPage D) (blk : Nat) (right : List (IndexTuple D)) : BTPage D :=
  { page with
    items := page.hikeyItem ++ pgaddtup page.leaf right
    prev := blk }

/-- `left` and `hikey :: rest` are the data items of the two halves. -/
structure Halves (page : BTPage D) (newitemoff : Nat) (newitem : IndexTuple D)
    (left : List (IndexTuple D)) (hikey : IndexTuple D) (rest : List (IndexTuple D)) : Prop where
  append : left ++ hikey :: rest = page.withItem newitemoff newitem
  left_ne_nil : page.leaf = false → left ≠ []

theorem Fits.exists_halves (hOrd : Ordered le page)
    (hPoint : SplitPoint page firstright newitemoff newitemonleft) (blk rightblk : Nat) :
    ∃ left hikey rest, Halves page newitemoff newitem left hikey rest ∧
      leftHalf page rightblk firstright newitemoff newitem newitemonleft =
        page.leftOf rightblk left hikey ∧
      rightHalf page blk firstright newitemoff newitem newitemonleft =
        page.rightOf blk (hikey :: rest) := by
  have hLength := hOrd.length_dataItems
  have hHigh : newitemoff ≤ page.firstDataKey + page.dataItems.length := hLength ▸ h.high
  have hOnleft : newitemonleft →
      newitemoff ≤ firstright ∧ firstright < page.firstDataKey + page.dataItems.length := by
    intro hLeft
    have := hPoint.onleft hLeft
    omega
  have hSplit := splitItems_eq newitem page.dataItems h.low hHigh hOnleft hPoint.onright
  rw [← withItem] at hSplit
  have hFirst := hPoint.low
  -- the split point leaves an item for the right page, the new one or an old one
  have hSome : (page.withItem newitemoff newitem)[firstright - page.firstDataKey +
      newitemonleft.toNat]? = if !newitemonleft && newitemoff == firstright then some newitem
        else page.item? firstright := by
    rw [item?_eq_dataItems hFirst, withItem]
    cases newitemonleft with
    | true =>
      have := hOnleft rfl
      rw [getElem?_insertIdx_of_gt (by simp; omega)]
      simp
    | false =>
      have := hPoint.onright rfl
      rcases Nat.lt_or_eq_of_le this with hLess | rfl
      · rw [getElem?_insertIdx_of_lt (by simp; omega)]
        simp [Nat.ne_of_gt hLess]
      · simp [getElem?_insertIdx_self]
        omega
  have hBound : firstright - page.firstDataKey + newitemonleft.toNat <
      (page.withItem newitemoff newitem).length := by
    rw [withItem, length_insertIdx_of_le_length (by omega)]
    cases newitemonleft with
    | true => have := hOnleft rfl; simp; omega
    | false => have := hPoint.onright rfl; simp; omega
  rw [splitAt_eq, drop_eq_getElem_cons hBound] at hSplit
  rw [getElem?_eq_getElem hBound] at hSome
  refine ⟨take (firstright - page.firstDataKey + newitemonleft.toNat)
    (page.withItem newitemoff newitem), _, _, ⟨?_, fun hLeaf => ?_⟩, ?_, by simp only [rightHalf, hSplit]; rfl⟩
  · rw [← drop_eq_getElem_cons hBound, take_append_drop]
  · have := hPoint.internal hLeaf
    apply ne_nil_of_length_pos
    rw [length_take]
    exact Nat.lt_min.mpr ⟨by omega, Nat.zero_lt_of_lt hBound⟩
  · simp only [leftHalf, leftOf, hSplit, splitHikey]
    split at hSome
    · rename_i hNew
      rw [if_pos hNew, some.inj hSome]
      rfl
    · rename_i hOld
      rw [if_neg hOld, ← hSome, toList_some]
      rfl

end

variable {blk rightblk : Nat} {left rest : List (IndexTuple D)} {hikey : IndexTuple D}

namespace Halves

variable (h : Halves page newitemoff newitem left hikey rest)
include h

/-- The keys of the old items and the new one, cut at the high key of the left half. -/
theorem keys_eq : keysOf page.leaf (page.withItem newitemoff newitem) =
    keysOf page.leaf left ++ hikey.key :: rest.map (·.key) := by
  rw [← h.append, keysOf_append h.left_ne_nil, map_cons]

section

omit h
variable (hBlk : rightblk ≠ pNone)
include hBlk

theorem left_firstDataKey : (page.leftOf rightblk left hikey).firstDataKey = 2 := by
  simpa [firstDataKey, rightmost, leftOf, pHikey] using hBlk

theorem left_dataItems :
    (page.leftOf rightblk left hikey).dataItems = pgaddtup page.leaf left := by
  rw [dataItems, left_firstDataKey hBlk]
  rfl

theorem left_hikey : (page.leftOf rightblk left hikey).hikey? = some hikey.key := by
  rw [hikey?, hikeyItem, left_firstDataKey hBlk]
  rfl

theorem left_dataKeys : (page.leftOf rightblk left hikey).dataKeys = keysOf page.leaf left := by
  rw [dataKeys, left_dataItems hBlk]
  exact keysOf_pgaddtup page.leaf left

end

variable (hOrd : Ordered le page)
include hOrd

omit h in
theorem right_data (blk : Nat) (right : List (IndexTuple D)) :
    (page.rightOf blk right).dataItems = pgaddtup page.leaf right ∧
      (page.rightOf blk right).hikey? = page.hikey? := by
  obtain ⟨hData, hItem⟩ := hOrd.dataItems_eq (page.rightOf blk right) _ rfl rfl
  exact ⟨hData, by rw [hikey?, hItem, hikey?]⟩

omit h in
theorem mem_right_dataKeys {key : Key D} (hMem : key ∈ (page.rightOf blk (hikey :: rest)).dataKeys) :
    key ∈ hikey.key :: rest.map (·.key) := by
  rw [dataKeys, (right_data hOrd blk _).1] at hMem
  have hKeys : key ∈ keysOf page.leaf (hikey :: rest) := by
    rwa [← keysOf_pgaddtup]
  obtain ⟨itup, hItup, rfl⟩ := mem_keysOf hKeys
  exact mem_map_of_mem hItup

variable (hFits : Fits le page newitemoff newitem)
include hFits

/-- The left half keeps the links on its left, the flags and a part of the keys, all of them at
most its high key. -/
theorem left_ordered (hBlk : rightblk ≠ pNone) :
    Ordered le (page.leftOf rightblk left hikey) := by
  have hSorted := hFits.sorted
  have hFull := hFits.keys_full hOrd
  rw [h.keys_eq] at hSorted hFull
  obtain ⟨hLeft, -, hCross⟩ := pairwise_append.mp hSorted
  exact { hOrd with
    hikey_present := by simp [leftOf]
    downlink_present := by
      intro hLeaf
      obtain ⟨first, others, rfl⟩ := exists_cons_of_ne_nil (h.left_ne_nil hLeaf)
      rw [left_dataItems hBlk, show page.leaf = false from hLeaf]
      simp [pgaddtup]
    full := by
      rw [left_dataKeys hBlk]
      exact fun key hMem => hFull key (mem_append_left _ hMem)
    hikey_full := by
      intro key hSome
      obtain rfl := some.inj ((left_hikey hBlk).symm.trans hSome)
      exact hFull _ (by simp)
    sorted := by
      rw [left_dataKeys hBlk]
      exact hLeft
    le_hikey := by
      intro key hSome other hMem
      obtain rfl := some.inj ((left_hikey hBlk).symm.trans hSome)
      rw [left_dataKeys hBlk] at hMem
      exact hCross other hMem _ (by simp) }

theorem right_ordered : Ordered le (page.rightOf blk (hikey :: rest)) := by
  have hSorted := hFits.sorted
  have hFull := hFits.keys_full hOrd
  have hBelow := hFits.keys_le_hikey hOrd
  rw [h.keys_eq] at hSorted hFull hBelow
  have hRight := (pairwise_append.mp hSorted).2.1
  -- the keys of the right half are those of all its items, or all but the first
  have hSub : (keysOf page.leaf (hikey :: rest)).Sublist (hikey.key :: rest.map (·.key)) := by
    cases page.leaf <;> simp [keysOf]
  have hMem : ∀ key ∈ keysOf page.leaf (hikey :: rest),
      key ∈ keysOf page.leaf left ++ hikey.key :: rest.map (·.key) :=
    fun key hKey => mem_append_right _ (hSub.subset hKey)
  refine hOrd.of_data rfl rfl rfl rfl rfl ?_ ?_ ?_ ?_
  · intro hLeaf
    simp [hLeaf, pgaddtup]
  · rw [keysOf_pgaddtup]
    exact fun key hKey => hFull key (hMem key hKey)
  · rw [keysOf_pgaddtup]
    exact hRight.sublist hSub
  · rw [keysOf_pgaddtup]
    exact fun hi hSome key hKey => hBelow hi hSome key (hMem key hKey)

/-- The high key of the left half is at most the keys of the right half and its high key. -/
theorem hikey_le (blk : Nat) :
    (∀ key ∈ (page.rightOf blk (hikey :: rest)).dataKeys, le hikey.key key) ∧ ∀ hi, page.hikey? = some hi → le hikey.key hi := by
  have hSorted := hFits.sorted
  have hFull := hFits.keys_full hOrd
  have hBelow := hFits.keys_le_hikey hOrd
  rw [h.keys_eq] at hSorted hFull hBelow
  have hRight := pairwise_cons.mp (pairwise_append.mp hSorted).2.1
  refine ⟨fun key hMem => ?_, fun hi hSome => hBelow hi hSome _ (by simp)⟩
  rcases mem_cons.mp (mem_right_dataKeys hOrd hMem) with rfl | hRest
  · exact hFull _ (by simp)
  · exact hRight.1 key hRest

/-- A key at most all keys of the page and the new one is at most what the left half has. -/
theorem left_of_lower (hBlk : rightblk ≠ pNone) {low : Key D} (hNew : le low newitem.key)
    (hOld : ∀ key ∈ page.dataKeys, le low key) :
    (∀ key ∈ (page.leftOf rightblk left hikey).dataKeys, le low key) ∧ le low hikey.key := by
  have hAll : ∀ key ∈ keysOf page.leaf left ++ hikey.key :: rest.map (·.key), le low key := by
    intro key hMem
    rw [← h.keys_eq] at hMem
    rcases hFits.mem_keys hOrd hMem with rfl | hKey
    · exact hNew
    · exact hOld key hKey
  refine ⟨fun key hMem => hAll key ?_, hAll _ (by simp)⟩
  rw [left_dataKeys hBlk] at hMem
  exact mem_append_left _ hMem

end Halves

end PgTuning.Nbtree
