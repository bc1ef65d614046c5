import PgTuning.Access.NbtreePages
import PgTuning.Lib.Chain

/-!
# Levels of right-linked pages, and what splits keep

`Sound` says what a B-tree is between two page visits. Each level is one finite chain of ordered
pages, whose high keys separate them. A downlink leads to a page one level below, and its key bounds
the high keys to the left of that page. The first downlink of an internal page has no key; what
bounds the pages left of its page bounds the pages left of its child. Nothing says that every page
has a downlink, so a split whose downlink is still to be inserted leaves a sound tree behind.
-/

namespace PgTuning.Nbtree

open Lib.Chain Option Nbtree.Tree

variable {D : Type}

/-! ## Sound trees -/

def Tree.succ (tree : Tree D) (blk : Nat) : Option Nat :=
  (tree blk).bind fun page => if page.rightmost then none else some page.next

def Tree.hikey? (tree : Tree D) (blk : Nat) : Option (Key D) := (tree blk).bind BTPage.hikey?

/-- Every high key to the left of the page `blk`, on its level, is in `bound`. -/
def LeftIn (tree : Tree D) (blk : Nat) (bound : Key D → Prop) : Prop :=
  ∀ other hikey, Before tree.succ other blk → tree.hikey? other = some hikey → bound hikey

/-- `itup` is a downlink of `page` to a page one level below. -/
def Links (tree : Tree D) (page : BTPage D) (itup : IndexTuple D) : Prop :=
  ∃ child, tree itup.tid.1 = some child ∧ child.level + 1 = page.level

section Sound

variable (le : Key D → Key D → Prop)

/-- With a key, every smaller one is in `bound`. -/
def DownClosed (bound : Key D → Prop) : Prop := ∀ key key', le key key' → bound key' → bound key

structure Sound (tree : Tree D) : Prop where
  metapage : tree pNone = none
  ordered : ∀ blk page, tree blk = some page → Ordered le page
  sibling : ∀ blk page next, tree blk = some page → tree.succ blk = some next →
    ∃ right, tree next = some right ∧ right.prev = blk ∧ right.level = page.level ∧
      ∀ hikey, page.hikey? = some hikey → (∀ key ∈ right.dataKeys, le hikey key) ∧
        ∀ hikey', right.hikey? = some hikey' → le hikey hikey'
  oneChain : ∀ a b pageA pageB, tree a = some pageA → tree b = some pageB →
    pageA.level = pageB.level → a = b ∨ Before tree.succ a b ∨ Before tree.succ b a
  terminates : Terminates tree.succ
  firstDownlink : ∀ blk page first, tree blk = some page → page.leaf = false →
    page.dataItems.head? = some first → Links tree page first ∧
      ∀ bound, DownClosed le bound → LeftIn tree blk bound → LeftIn tree first.tid.1 bound
  downlink : ∀ blk page, tree blk = some page → page.leaf = false →
    ∀ itup ∈ page.dataItems.tail, Links tree page itup ∧
      LeftIn tree itup.tid.1 fun key => le key itup.key

/-! ## Allowed events -/

/-- A new item for the page `blk`, between the high key of the left sibling and that of the page. On
an internal page it is the downlink of a page that a split has made, and its key is the high key of
the left half. -/
structure ItemFits (tree : Tree D) (blk : Nat) (page : BTPage D) (newitemoff : Nat)
    (newitem : IndexTuple D) : Prop where
  fits : Fits le page newitemoff newitem
  lower : ∀ left hikey, tree.succ left = some blk → tree.hikey? left = some hikey →
    le hikey newitem.key
  downlink : page.leaf = false → ∃ left leftPage, tree left = some leftPage ∧
    leftPage.level + 1 = page.level ∧ tree.succ left = some newitem.tid.1 ∧
    tree.hikey? left = some newitem.key

/-- What the callers of the three operations see to. A new page has a block number of its own, and
a new root comes over the only two pages of the highest level. -/
def Allowed (tree : Tree D) : Event D → Prop
  | .split blk rightblk firstright newitemoff newitem newitemonleft =>
    tree rightblk = none ∧ rightblk ≠ pNone ∧ ∃ page, tree blk = some page ∧
      SplitPoint page firstright newitemoff newitemonleft ∧
      ItemFits le tree blk page newitemoff newitem
  | .insert blk newitemoff itup =>
    ∃ page, tree blk = some page ∧ ItemFits le tree blk page newitemoff itup
  | .newroot rootblk lbkno rbkno =>
    tree rootblk = none ∧ rootblk ≠ pNone ∧ ∃ lpage, tree lbkno = some lpage ∧
      tree.succ lbkno = some rbkno ∧ lpage.prev = pNone ∧
      ∀ blk page, tree blk = some page → page.level ≤ lpage.level

end Sound

variable {le : Key D → Key D → Prop} {tree : Tree D} {blk next : Nat}

theorem succ_eq_some : tree.succ blk = some next ↔
      ∃ page, tree blk = some page ∧ page.rightmost = false ∧ page.next = next := by
  simp only [succ, bind_eq_some_iff]
  constructor
  · rintro ⟨page, hPage, hNext⟩
    split at hNext
    case isTrue => simp at hNext
    case isFalse hRight =>
      exact ⟨page, hPage, Bool.eq_false_iff.mpr hRight, some.inj hNext⟩
  · rintro ⟨page, hPage, hRight, rfl⟩
    exact ⟨page, hPage, by simp [hRight]⟩

theorem hikey?_of_page {blk : Nat} {page : BTPage D} (h : tree blk = some page) :
    tree.hikey? blk = page.hikey? := by
  simp [hikey?, h]

theorem hikey?_eq_some {blk : Nat} {hikey : Key D} :
    tree.hikey? blk = some hikey ↔ ∃ page, tree blk = some page ∧ page.hikey? = some hikey := by
  simp [hikey?, bind_eq_some_iff]

namespace Sound

variable (h : Sound le tree)
include h

theorem succ_exists (hNext : tree.succ blk = some next) : ∃ page, tree next = some page := by
  obtain ⟨page, hPage, -⟩ := succ_eq_some.mp hNext
  obtain ⟨right, hRight, -⟩ := h.sibling blk page next hPage hNext
  exact ⟨right, hRight⟩

theorem succ_injective (x y c : Nat) (hx : tree.succ x = some c) (hy : tree.succ y = some c) :
    x = y := by
  obtain ⟨pageX, hPageX, -⟩ := succ_eq_some.mp hx
  obtain ⟨pageY, hPageY, -⟩ := succ_eq_some.mp hy
  obtain ⟨right, hRight, hPrevX, -⟩ := h.sibling x pageX c hPageX hx
  obtain ⟨right', hRight', hPrevY, -⟩ := h.sibling y pageY c hPageY hy
  obtain rfl := some.inj (hRight.symm.trans hRight')
  exact hPrevX.symm.trans hPrevY

theorem succ_ne_of_leftmost {blk : Nat} {page : BTPage D} (hPage : tree blk = some page)
    (hPrev : page.prev = pNone) (other : Nat) : tree.succ other ≠ some blk := by
  intro hNext
  obtain ⟨otherPage, hOther, -⟩ := succ_eq_some.mp hNext
  obtain ⟨right, hRight, hBack, -⟩ := h.sibling other otherPage blk hOther hNext
  obtain rfl := some.inj (hPage.symm.trans hRight)
  rw [← hBack, hPrev, h.metapage] at hOther
  simp at hOther

theorem exists_hikey (hNext : tree.succ blk = some next) :
    ∃ hikey, tree.hikey? blk = some hikey := by
  obtain ⟨page, hPage, hRight, -⟩ := succ_eq_some.mp hNext
  obtain ⟨hikey, hHikey, -⟩ := (h.ordered blk page hPage).hikey?_eq hRight
  exact ⟨hikey, hikey?_eq_some.mpr ⟨page, hPage, hHikey⟩⟩

/-- High keys do not decrease to the right: induction along the chain. -/
theorem hikey_le_of_before [IsTrans _ le] {a b : Nat}
    {hikeyA hikeyB : Key D} (hBefore : Before tree.succ a b) (hA : tree.hikey? a = some hikeyA)
    (hB : tree.hikey? b = some hikeyB) : le hikeyA hikeyB := by
  have hStep : ∀ {x y hx hy}, tree.succ x = some y → tree.hikey? x = some hx →
      tree.hikey? y = some hy → le hx hy := by
    intro x y hx hy hNext hX hY
    obtain ⟨page, hPage, hHikey⟩ := hikey?_eq_some.mp hX
    obtain ⟨right, hRight, -, -, hBound⟩ := h.sibling x page y hPage hNext
    rw [hikey?_of_page hRight] at hY
    exact (hBound hx hHikey).2 hy hY
  induction hBefore generalizing hikeyB with
  | single hNext => exact hStep hNext hA hB
  | tail _ hNext ih =>
    obtain ⟨hikey, hMid⟩ := h.exists_hikey hNext
    exact trans_of le (ih hMid) (hStep hNext hMid hB)

/-- What is left of a right sibling is at most the high key on its left. -/
theorem leftIn_next [IsTrans _ le]
    {hikey : Key D} (hNext : tree.succ blk = some next) (hHikey : tree.hikey? blk = some hikey) :
    LeftIn tree next fun key => le key hikey := by
  intro other key hBefore hKey
  rcases (before_next_iff h.succ_injective hNext).mp hBefore with rfl | hFar
  · obtain rfl := some.inj (hKey.symm.trans hHikey)
    obtain ⟨page, hPage, hSome⟩ := hikey?_eq_some.mp hKey
    exact (h.ordered _ page hPage).hikey_full _ hSome
  · exact h.hikey_le_of_before hFar hKey hHikey

end Sound

/-! ## A split -/

/-- `tree'` is `tree` with the page at `blk` replaced by its two halves; of the other pages only
the right sibling changes, in its link to the left. -/
structure SplitOf (tree tree' : Tree D) (blk rightblk : Nat) (left right : BTPage D) : Prop where
  at_blk : tree' blk = some left
  at_right : tree' rightblk = some right
  other : ∀ b, b ≠ blk → b ≠ rightblk → tree' b = (tree b).map fun page =>
    { page with prev := if tree.succ blk = some b then rightblk else page.prev }

section Split

variable {blk rightblk : Nat} {page : BTPage D}

variable (h : Sound le tree) (hPage : tree blk = some page) (hFresh : tree rightblk = none)
include h hPage hFresh

theorem Sound.new : New tree.succ blk rightblk where
  ne := by
    rintro rfl
    simp [hPage] at hFresh
  unlinked other hNext := by
    obtain ⟨next, hSome⟩ := h.succ_exists hNext
    simp [hFresh] at hSome

/-- The left-link of the right sibling matches, so the split is not refused. -/
theorem Sound.btSplit (firstright newitemoff : Nat) (newitem : IndexTuple D)
    (newitemonleft : Bool) :
    ∃ tree', btSplit tree blk rightblk firstright newitemoff newitem newitemonleft = some tree' ∧
      SplitOf tree tree' blk rightblk
        (leftHalf page rightblk firstright newitemoff newitem newitemonleft)
        (rightHalf page blk firstright newitemoff newitem newitemonleft) := by
  have hNew := h.new hPage hFresh
  unfold Nbtree.btSplit
  simp only [hPage, bind_eq_bind, bind_some]
  cases hRight : page.rightmost with
  | true =>
    have hSucc : tree.succ blk = none := by simp [succ, hPage, hRight]
    refine ⟨_, by rw [if_pos rfl], ?_, ?_, ?_⟩
    · simp [Tree.set, hNew.ne.symm]
    · simp [Tree.set]
    · intro b hb hb'
      simp [Tree.set, hb, hb', hSucc]
  | false =>
    have hSucc : tree.succ blk = some page.next := succ_eq_some.mpr ⟨page, hPage, hRight, rfl⟩
    obtain ⟨sibling, hSibling, hPrev, -⟩ := h.sibling blk page page.next hPage hSucc
    have hNextBlk : blk ≠ page.next := by
      intro hEq
      refine h.terminates.not_before_self blk (.single ?_)
      rw [hSucc, ← hEq]
    have hNextRight : rightblk ≠ page.next := by
      intro hEq
      exact hNew.unlinked blk (hEq ▸ hSucc)
    simp only [hSibling, bind_some, hPrev, if_true]
    refine ⟨_, by rw [if_neg (by decide)], ?_, ?_, ?_⟩
    · simp [Tree.set, hNew.ne.symm, hNextBlk]
    · simp [Tree.set, hNextRight]
    · intro b hb hb'
      by_cases hNext : b = page.next
      · subst hNext
        simp [Tree.set, hSucc, hSibling]
      · simp [Tree.set, hb, hb', hSucc, hNext, Ne.symm hNext]

end Split

variable (le tree)

/-- A split as the tree sees it: how the halves `left` and `right` of `page` and the high key
between them stand to the keys and the downlinks that were there. -/
structure SplitStep (tree' : Tree D) (blk rightblk : Nat) (page left right : BTPage D)
    (hikey : Key D) : Prop where
  at_page : tree blk = some page
  fresh : tree rightblk = none
  nonzero : rightblk ≠ pNone
  splitOf : SplitOf tree tree' blk rightblk left right
  left_ordered : Ordered le left
  right_ordered : Ordered le right
  left_same : left.prev = page.prev ∧ left.level = page.level ∧ left.leaf = page.leaf
  right_same : right.next = page.next ∧ right.level = page.level ∧ right.leaf = page.leaf
  left_next : left.next = rightblk
  right_prev : right.prev = blk
  left_hikey : left.hikey? = some hikey
  right_hikey : right.hikey? = page.hikey?
  hikey_le_right : ∀ key ∈ right.dataKeys, le hikey key
  hikey_le_old : ∀ old, page.hikey? = some old → le hikey old
  left_lower : ∀ other low, tree.succ other = some blk → tree.hikey? other = some low →
    (∀ key ∈ left.dataKeys, le low key) ∧ le low hikey
  left_first : page.leaf = false → ∀ first, left.dataItems.head? = some first →
    ∃ old, page.dataItems.head? = some old ∧ old.tid = first.tid
  right_first : page.leaf = false → ∀ first, right.dataItems.head? = some first →
    Links tree page first ∧ LeftIn tree first.tid.1 fun key => le key hikey
  behind : page.leaf = false → ∀ itup ∈ left.dataItems.tail ++ right.dataItems.tail,
    Links tree page itup ∧ LeftIn tree itup.tid.1 fun key => le key itup.key

variable {le tree}

namespace SplitStep

variable {tree' : Tree D} {blk rightblk : Nat} {page left right : BTPage D} {hikey : Key D}
  (h : SplitStep le tree tree' blk rightblk page left right hikey) {b : Nat} {itup : IndexTuple D}
  {parent : BTPage D}
include h

theorem new (hSound : Sound le tree) : New tree.succ blk rightblk :=
  hSound.new h.at_page h.fresh

theorem succ_fresh : tree.succ rightblk = none := by
  simp [succ, h.fresh]

theorem anchor_page {new : BTPage D} (hb : tree' b = some new) :
    ∃ old, tree (anchor blk rightblk b) = some old ∧ old.level = new.level := by
  by_cases hRight : b = rightblk
  · rw [hRight, h.splitOf.at_right] at hb
    rw [anchor, if_pos hRight]
    exact ⟨page, h.at_page, some.inj hb ▸ h.right_same.2.1.symm⟩
  · rw [anchor, if_neg hRight]
    by_cases hLeft : b = blk
    · rw [hLeft, h.splitOf.at_blk] at hb
      exact ⟨page, hLeft ▸ h.at_page, some.inj hb ▸ h.left_same.2.1.symm⟩
    · rw [h.splitOf.other b hLeft hRight] at hb
      obtain ⟨old, hOld, rfl⟩ := map_eq_some_iff.mp hb
      exact ⟨old, hOld, rfl⟩

theorem page_exists {old : BTPage D} (hb : tree b = some old) :
    ∃ new, tree' b = some new ∧ new.level = old.level := by
  by_cases hLeft : b = blk
  · subst hLeft
    obtain rfl := some.inj (h.at_page.symm.trans hb)
    exact ⟨left, h.splitOf.at_blk, h.left_same.2.1⟩
  · have hRight : b ≠ rightblk := by
      rintro rfl
      simp [h.fresh] at hb
    have hAt := h.splitOf.other b hLeft hRight
    rw [hb] at hAt
    exact ⟨_, hAt, rfl⟩

theorem succ_eq (hSound : Sound le tree) : tree'.succ = insertAfter tree.succ blk rightblk := by
  funext b
  have hNew := h.new hSound
  by_cases hLeft : b = blk
  · subst hLeft
    rw [insertAfter_self]
    refine succ_eq_some.mpr ⟨left, h.splitOf.at_blk, ?_, h.left_next⟩
    simpa [BTPage.rightmost, h.left_next] using h.nonzero
  · by_cases hRight : b = rightblk
    · subst hRight
      rw [insertAfter_new hNew]
      simp [succ, h.splitOf.at_right, h.at_page, BTPage.rightmost, h.right_same.1]
    · rw [insertAfter_of_ne hLeft hRight, succ, succ, h.splitOf.other b hLeft hRight]
      cases tree b <;> rfl

theorem hikey?_other (hLeft : b ≠ blk) (hRight : b ≠ rightblk) :
    tree'.hikey? b = tree.hikey? b := by
  rw [hikey?, hikey?, h.splitOf.other b hLeft hRight]
  cases tree b <;> rfl

theorem hikey?_blk : tree'.hikey? blk = some hikey := by
  simp [hikey?, h.splitOf.at_blk, h.left_hikey]

theorem hikey?_right : tree'.hikey? rightblk = tree.hikey? blk := by
  simp [hikey?, h.splitOf.at_right, h.right_hikey, h.at_page]

/-- A split does not change what bounds the high keys left of an old page: the old high key of the
split page moves to its right half, and the new one is smaller. -/
theorem leftIn_iff (hSound : Sound le tree) (hb : b ≠ rightblk) {bound : Key D → Prop}
    (hDown : DownClosed le bound) : LeftIn tree' b bound ↔ LeftIn tree b bound := by
  have hNew := h.new hSound
  have hFresh := h.succ_fresh
  constructor
  · intro hLeftIn other key hBefore hKey
    by_cases hOther : other = blk
    · subst hOther
      refine hLeftIn rightblk key ?_ (h.hikey?_right.trans hKey)
      rw [h.succ_eq hSound, before_insertAfter hNew hFresh hb, anchor, if_pos rfl]
      exact hBefore
    · have hNotRight : other ≠ rightblk := by
        rintro rfl
        simp [hikey?, h.fresh] at hKey
      refine hLeftIn other key ?_ ((h.hikey?_other hOther hNotRight).trans hKey)
      rw [h.succ_eq hSound, before_insertAfter hNew hFresh hb, anchor, if_neg hNotRight]
      exact hBefore
  · intro hLeftIn other key hBefore hKey
    rw [h.succ_eq hSound, before_insertAfter hNew hFresh hb] at hBefore
    by_cases hRight : other = rightblk
    · rw [anchor, if_pos hRight] at hBefore
      exact hLeftIn blk key hBefore (h.hikey?_right.symm.trans (hRight ▸ hKey))
    · rw [anchor, if_neg hRight] at hBefore
      by_cases hLeft : other = blk
      · subst hLeft
        obtain rfl := some.inj (h.hikey?_blk.symm.trans hKey)
        obtain ⟨next, hNext, -⟩ := Relation.TransGen.head'_iff.mp hBefore
        obtain ⟨old, hOld⟩ := hSound.exists_hikey hNext
        rw [hikey?_of_page h.at_page] at hOld
        refine hDown _ _ (h.hikey_le_old old hOld) (hLeftIn other old hBefore ?_)
        rw [hikey?_of_page h.at_page, hOld]
      · exact hLeftIn other key hBefore ((h.hikey?_other hLeft hRight).symm.trans hKey)

theorem links (hLinks : Links tree parent itup) : Links tree' parent itup := by
  obtain ⟨child, hChild, hLevel⟩ := hLinks
  obtain ⟨new, hNew, hSame⟩ := h.page_exists hChild
  exact ⟨new, hNew, by rw [hSame, hLevel]⟩

theorem child_ne (hLinks : Links tree parent itup) : itup.tid.1 ≠ rightblk := by
  obtain ⟨child, hChild, -⟩ := hLinks
  intro hEq
  simp [hEq, h.fresh] at hChild

/-- Every page of the new tree: one of the halves, or an old page with its keys and links to the
right. -/
theorem page_cases {new : BTPage D} (hb : tree' b = some new) :
    (b = blk ∧ new = left) ∨ (b = rightblk ∧ new = right) ∨
      (b ≠ blk ∧ b ≠ rightblk ∧ ∃ old, tree b = some old ∧ new =
        { old with prev := if tree.succ blk = some b then rightblk else old.prev }) := by
  by_cases hLeft : b = blk
  · rw [hLeft, h.splitOf.at_blk] at hb
    exact .inl ⟨hLeft, (some.inj hb).symm⟩
  · by_cases hRight : b = rightblk
    · rw [hRight, h.splitOf.at_right] at hb
      exact .inr (.inl ⟨hRight, (some.inj hb).symm⟩)
    · rw [h.splitOf.other b hLeft hRight] at hb
      obtain ⟨old, hOld, rfl⟩ := map_eq_some_iff.mp hb
      exact .inr (.inr ⟨hLeft, hRight, old, hOld, rfl⟩)

variable (hSound : Sound le tree)
include hSound

theorem ordered (b : Nat) (new : BTPage D) (hb : tree' b = some new) : Ordered le new := by
  rcases h.page_cases hb with ⟨-, rfl⟩ | ⟨-, rfl⟩ | ⟨-, -, old, hOld, rfl⟩
  · exact h.left_ordered
  · exact h.right_ordered
  · exact { hSound.ordered b old hOld with }

/-- The siblings of the new tree: across the split, behind its right half, before its left half, and
elsewhere as before. -/
theorem sibling (b : Nat) (new : BTPage D) (next : Nat)
    (hb : tree' b = some new) (hNext : tree'.succ b = some next) :
    ∃ neighbour, tree' next = some neighbour ∧ neighbour.prev = b ∧
      neighbour.level = new.level ∧
      ∀ key, new.hikey? = some key → (∀ other ∈ neighbour.dataKeys, le key other) ∧
        ∀ other, neighbour.hikey? = some other → le key other := by
  have hNew := h.new hSound
  have hOldNext := hNext
  rw [h.succ_eq hSound] at hOldNext
  rcases h.page_cases hb with ⟨rfl, rfl⟩ | ⟨rfl, rfl⟩ | ⟨hLeft, hRight, old, hOld, rfl⟩
  · rw [insertAfter_self] at hOldNext
    obtain rfl := some.inj hOldNext
    refine ⟨right, h.splitOf.at_right, h.right_prev, ?_, fun key hKey => ?_⟩
    · rw [h.right_same.2.1, h.left_same.2.1]
    · obtain rfl := some.inj (h.left_hikey.symm.trans hKey)
      exact ⟨h.hikey_le_right, fun other hOther => h.hikey_le_old other (h.right_hikey ▸ hOther)⟩
  · rw [insertAfter_new hNew] at hOldNext
    obtain ⟨after, hAfter, -, hLevel, hBound⟩ := hSound.sibling blk page next h.at_page hOldNext
    have hNotBlk : next ≠ blk := by
      rintro rfl
      exact hSound.terminates.not_before_self next (.single hOldNext)
    have hNotRight : next ≠ b := by
      rintro rfl
      exact hNew.unlinked blk hOldNext
    have hAt := h.splitOf.other next hNotBlk hNotRight
    rw [hAfter] at hAt
    exact ⟨_, hAt, if_pos hOldNext, hLevel.trans h.right_same.2.1.symm,
      fun key hKey => hBound key (h.right_hikey ▸ hKey)⟩
  · rw [insertAfter_of_ne hLeft hRight] at hOldNext
    obtain ⟨after, hAfter, hPrev, hLevel, hBound⟩ := hSound.sibling b old next hOld hOldNext
    by_cases hBlk : next = blk
    · subst hBlk
      obtain rfl := some.inj (h.at_page.symm.trans hAfter)
      refine ⟨left, h.splitOf.at_blk, h.left_same.1.trans hPrev, h.left_same.2.1.trans hLevel, ?_⟩
      intro key hKey
      obtain ⟨hData, hHikey⟩ := h.left_lower b key hOldNext (hikey?_of_page hOld ▸ hKey)
      refine ⟨hData, fun other hOther => ?_⟩
      obtain rfl := some.inj (h.left_hikey.symm.trans hOther)
      exact hHikey
    · have hNotRight : next ≠ rightblk := by
        rintro rfl
        exact hNew.unlinked b hOldNext
      have hAt := h.splitOf.other next hBlk hNotRight
      rw [hAfter] at hAt
      refine ⟨_, hAt, ?_, hLevel, hBound⟩
      -- only one page links to `next`, and it is not the split one
      have hNotNext : tree.succ blk ≠ some next := fun hEq =>
        hLeft (hSound.succ_injective _ _ _ hOldNext hEq)
      exact (if_neg hNotNext).trans hPrev

theorem firstDownlink (b : Nat) (new : BTPage D) (first : IndexTuple D) (hb : tree' b = some new)
    (hLeaf : new.leaf = false) (hFirst : new.dataItems.head? = some first) :
    Links tree' new first ∧ ∀ bound, DownClosed le bound →
      LeftIn tree' b bound → LeftIn tree' first.tid.1 bound := by
  -- an old downlink without a key still says what it said
  have hKeep : ∀ (parent : BTPage D) (itup : IndexTuple D), Links tree parent itup →
      b ≠ rightblk → (∀ bound, DownClosed le bound → LeftIn tree b bound →
        LeftIn tree itup.tid.1 bound) →
      ∀ bound, DownClosed le bound → LeftIn tree' b bound → LeftIn tree' itup.tid.1 bound := by
    intro parent itup hLinks hNotRight hOld bound hDown hLeftIn
    rw [h.leftIn_iff hSound (h.child_ne hLinks) hDown]
    exact hOld bound hDown ((h.leftIn_iff hSound hNotRight hDown).mp hLeftIn)
  rcases h.page_cases hb with ⟨rfl, rfl⟩ | ⟨rfl, rfl⟩ | ⟨hLeft, hRight, old, hOld, rfl⟩
  · have hPageLeaf : page.leaf = false := h.left_same.2.2 ▸ hLeaf
    obtain ⟨old, hOldFirst, hTid⟩ := h.left_first hPageLeaf first hFirst
    obtain ⟨hLinks, hBound⟩ := hSound.firstDownlink b page old h.at_page hPageLeaf hOldFirst
    have hNe := (h.new hSound).ne.symm
    rw [← hTid]
    refine ⟨?_, hKeep page old hLinks hNe hBound⟩
    obtain ⟨child, hChild, hLevel⟩ := h.links hLinks
    exact ⟨child, hTid ▸ hChild, by rw [hLevel, h.left_same.2.1]⟩
  · -- the first item of the right half had the key that is now the high key to its left
    have hPageLeaf : page.leaf = false := h.right_same.2.2 ▸ hLeaf
    obtain ⟨hLinks, hBelow⟩ := h.right_first hPageLeaf first hFirst
    obtain ⟨child, hChild, hLevel⟩ := h.links hLinks
    refine ⟨⟨child, hChild, by rw [hLevel, h.right_same.2.1]⟩, fun bound hDown hLeftIn => ?_⟩
    rw [h.leftIn_iff hSound (h.child_ne hLinks) hDown]
    have hHikey : bound hikey := by
      refine hLeftIn blk hikey ?_ h.hikey?_blk
      rw [h.succ_eq hSound]
      exact .single insertAfter_self
    exact fun other key hBefore hKey => hDown key hikey (hBelow other key hBefore hKey) hHikey
  · obtain ⟨hLinks, hBound⟩ := hSound.firstDownlink b old first hOld hLeaf hFirst
    exact ⟨h.links hLinks, hKeep old first hLinks hRight hBound⟩

theorem downlink [IsTrans _ le] (b : Nat)
    (new : BTPage D) (hb : tree' b = some new) (hLeaf : new.leaf = false) :
    ∀ itup ∈ new.dataItems.tail, Links tree' new itup ∧
      LeftIn tree' itup.tid.1 fun key => le key itup.key := by
  have hKeep : ∀ (parent : BTPage D) (itup : IndexTuple D), Links tree parent itup →
      (LeftIn tree itup.tid.1 fun key => le key itup.key) →
      Links tree' parent itup ∧ LeftIn tree' itup.tid.1 fun key => le key itup.key := by
    intro parent itup hLinks hBelow
    refine ⟨h.links hLinks, ?_⟩
    exact (h.leftIn_iff hSound (h.child_ne hLinks) fun _ _ => trans_of le).mpr hBelow
  intro itup hItup
  rcases h.page_cases hb with ⟨rfl, rfl⟩ | ⟨rfl, rfl⟩ | ⟨hLeft, hRight, old, hOld, rfl⟩
  · obtain ⟨hLinks, hBelow⟩ := h.behind (h.left_same.2.2 ▸ hLeaf) itup
      (List.mem_append_left _ hItup)
    obtain ⟨⟨child, hChild, hLevel⟩, hBelow'⟩ := hKeep page itup hLinks hBelow
    exact ⟨⟨child, hChild, by rw [hLevel, h.left_same.2.1]⟩, hBelow'⟩
  · obtain ⟨hLinks, hBelow⟩ := h.behind (h.right_same.2.2 ▸ hLeaf) itup
      (List.mem_append_right _ hItup)
    obtain ⟨⟨child, hChild, hLevel⟩, hBelow'⟩ := hKeep page itup hLinks hBelow
    exact ⟨⟨child, hChild, by rw [hLevel, h.right_same.2.1]⟩, hBelow'⟩
  · obtain ⟨hLinks, hBelow⟩ := hSound.downlink b old hOld hLeaf itup hItup
    exact hKeep old itup hLinks hBelow

theorem sound [IsTrans _ le] : Sound le tree' where
  metapage := by
    have hBlk : pNone ≠ blk := by
      intro hEq
      have hPage := h.at_page
      rw [← hEq, hSound.metapage] at hPage
      simp at hPage
    rw [h.splitOf.other pNone hBlk h.nonzero.symm, hSound.metapage]
    rfl
  ordered := h.ordered hSound
  sibling := h.sibling hSound
  oneChain a b pageA pageB hA hB hLevel := by
    obtain ⟨oldA, hOldA, hLevelA⟩ := h.anchor_page hA
    obtain ⟨oldB, hOldB, hLevelB⟩ := h.anchor_page hB
    rw [h.succ_eq hSound]
    refine comparable_insertAfter (h.new hSound) h.succ_fresh hSound.terminates ?_
    exact hSound.oneChain _ _ oldA oldB hOldA hOldB (by rw [hLevelA, hLevelB, hLevel])
  terminates := by
    rw [h.succ_eq hSound]
    exact terminates_insertAfter (h.new hSound) hSound.terminates
  firstDownlink := h.firstDownlink hSound
  downlink := h.downlink hSound

end SplitStep

end PgTuning.Nbtree
