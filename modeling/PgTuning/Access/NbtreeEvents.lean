import PgTuning.Access.NbtreeTree
import PgTuning.Lib.Run

/-!
# Allowed events keep a tree sound

What other backends do between two page visits: a page split, the insertion of an item that fits on
its page (the downlink of an earlier split among them), and a new root. Each keeps the tree sound,
and what a descent in progress knows of its page: a bound for the high keys to its left.
-/

namespace PgTuning.Nbtree

open Lib.Chain List Option

variable {D : Type} {le : Key D → Key D → Prop} {tree : Tree D}

/-! ## The new item -/

section Item

variable {blk newitemoff : Nat} {page : BTPage D} {newitem : IndexTuple D}

variable (h : ItemFits le tree blk page newitemoff newitem) (hSound : Sound le tree)
include h hSound

/-- The items behind the first one, with the new item among them, are downlinks whose keys bound
what is left of their children. -/
theorem ItemFits.downlinks [IsTrans _ le]
    (hPage : tree blk = some page) (hLeaf : page.leaf = false) :
    ∀ itup ∈ (page.withItem newitemoff newitem).tail, Links tree page itup ∧
      LeftIn tree itup.tid.1 fun key => le key itup.key := by
  intro itup hItup
  rcases h.fits.mem_tail_withItem (hSound.ordered blk page hPage) hLeaf hItup with rfl | hOld
  · obtain ⟨left, leftPage, hLeft, hLevel, hNext, hHikey⟩ := h.downlink hLeaf
    obtain ⟨child, hChild, -, hSame, -⟩ := hSound.sibling left leftPage _ hLeft hNext
    exact ⟨⟨child, hChild, by rw [hSame, hLevel]⟩, hSound.leftIn_next hNext hHikey⟩
  · exact hSound.downlink blk page hPage hLeaf itup hOld

/-- The high key of the left sibling is at most the keys of the page and the new one. -/
theorem ItemFits.left_le (hPage : tree blk = some page) {other : Nat} {low : Key D}
    (hNext : tree.succ other = some blk) (hLow : tree.hikey? other = some low) :
    le low newitem.key ∧ ∀ key ∈ page.dataKeys, le low key := by
  obtain ⟨otherPage, hOther, hHikey⟩ := hikey?_eq_some.mp hLow
  obtain ⟨right, hRight, -, -, hBound⟩ := hSound.sibling other otherPage blk hOther hNext
  obtain rfl := some.inj (hPage.symm.trans hRight)
  exact ⟨h.lower other low hNext hLow, (hBound low hHikey).1⟩

end Item

/-! ## Splits -/

theorem head?_pgaddtup {leaf : Bool} {items : List (IndexTuple D)} {first : IndexTuple D}
    (h : (pgaddtup leaf items).head? = some first) :
    ∃ old, items.head? = some old ∧ old.tid = first.tid := by
  cases items with
  | nil => simp [pgaddtup] at h
  | cons old rest =>
    refine ⟨old, rfl, ?_⟩
    cases leaf <;> simp [pgaddtup] at h <;> rw [← h]

theorem tail_pgaddtup (leaf : Bool) (items : List (IndexTuple D)) :
    (pgaddtup leaf items).tail = items.tail := by
  cases leaf <;> cases items <;> rfl

theorem Sound.splitStep (hSound : Sound le tree) [IsTrans _ le]
    {blk rightblk firstright newitemoff : Nat} {newitem : IndexTuple D} {newitemonleft : Bool}
    {page : BTPage D} (hPage : tree blk = some page) (hFresh : tree rightblk = none)
    (hBlk : rightblk ≠ pNone) (hPoint : SplitPoint page firstright newitemoff newitemonleft)
    (hItem : ItemFits le tree blk page newitemoff newitem) :
    ∃ tree' left right hikey,
      Nbtree.btSplit tree blk rightblk firstright newitemoff newitem newitemonleft = some tree' ∧
        SplitStep le tree tree' blk rightblk page left right hikey := by
  have hOrd := hSound.ordered blk page hPage
  have hFits := hItem.fits
  obtain ⟨tree', hSplit, hOf⟩ := hSound.btSplit hPage hFresh firstright newitemoff newitem
    newitemonleft
  obtain ⟨left, hikey, rest, h, hLeftHalf, hRightHalf⟩ :=
    hFits.exists_halves hOrd hPoint blk rightblk
  rw [hLeftHalf, hRightHalf] at hOf
  obtain ⟨hRight, hRightHikey⟩ := Halves.right_data hOrd blk (hikey :: rest)
  -- on an internal page all items but the first one of the left half are behind the first item
  have hBehind : page.leaf = false → ∀ itup ∈ left.tail ++ hikey :: rest,
      Links tree page itup ∧ LeftIn tree itup.tid.1 fun key => le key itup.key := by
    intro hLeaf itup hItup
    refine hItem.downlinks hSound hPage hLeaf itup ?_
    rwa [← h.append, tail_append_of_ne_nil (h.left_ne_nil hLeaf)]
  refine ⟨tree', _, _, hikey.key, hSplit, {
    at_page := hPage
    fresh := hFresh
    nonzero := hBlk
    splitOf := hOf
    left_ordered := h.left_ordered hOrd hFits hBlk
    right_ordered := h.right_ordered hOrd hFits
    left_same := ⟨rfl, rfl, rfl⟩
    right_same := ⟨rfl, rfl, rfl⟩
    left_next := rfl
    right_prev := rfl
    left_hikey := Halves.left_hikey hBlk
    right_hikey := hRightHikey
    hikey_le_right := (h.hikey_le hOrd hFits blk).1
    hikey_le_old := (h.hikey_le hOrd hFits blk).2
    left_lower := ?_
    left_first := ?_
    right_first := ?_
    behind := ?_ }⟩
  · intro other low hNext hLow
    obtain ⟨hNew, hOld⟩ := hItem.left_le hSound hPage hNext hLow
    exact h.left_of_lower hOrd hFits hBlk hNew hOld
  · intro hLeaf first hFirst
    rw [Halves.left_dataItems hBlk] at hFirst
    obtain ⟨old, hOld, hTid⟩ := head?_pgaddtup hFirst
    obtain ⟨first', hHead, hItems⟩ := hFits.withItem_internal hOrd hLeaf
    -- the left half begins with the first item of the page
    rw [← h.append] at hItems
    obtain ⟨others, rfl⟩ := head?_eq_some_iff.mp hOld
    obtain rfl : old = first' := (cons.inj hItems).1
    exact ⟨old, hHead, hTid⟩
  · intro hLeaf first hFirst
    rw [hRight] at hFirst
    obtain ⟨old, hOld, hTid⟩ := head?_pgaddtup hFirst
    obtain rfl : hikey = old := some.inj hOld
    obtain ⟨⟨child, hChild, hLevel⟩, hBelow⟩ := hBehind hLeaf hikey (by simp)
    rw [hTid] at hChild hBelow
    exact ⟨⟨child, hChild, hLevel⟩, hBelow⟩
  · intro hLeaf itup hItup
    rw [Halves.left_dataItems hBlk, hRight, tail_pgaddtup, tail_pgaddtup] at hItup
    refine hBehind hLeaf itup ?_
    simp only [mem_append, mem_cons] at hItup ⊢
    exact hItup.imp_right .inr

/-! ## Insertions and new roots

Neither changes the links or the high keys of the pages that are there. -/

/-- `tree'` has the chains and the high keys of `tree`, and its pages on their levels. -/
structure SameChains (tree tree' : Tree D) : Prop where
  succ : tree'.succ = tree.succ
  hikey : tree'.hikey? = tree.hikey?
  page : ∀ b old, tree b = some old → ∃ new, tree' b = some new ∧ new.level = old.level

namespace SameChains

variable {tree' : Tree D} (h : SameChains tree tree')
include h

theorem leftIn_iff {b : Nat} {bound : Key D → Prop} :
    LeftIn tree' b bound ↔ LeftIn tree b bound := by
  rw [LeftIn, LeftIn, h.succ, h.hikey]

theorem links {parent : BTPage D} {itup : IndexTuple D} (hLinks : Links tree parent itup) :
    Links tree' parent itup := by
  obtain ⟨child, hChild, hLevel⟩ := hLinks
  obtain ⟨new, hNew, hSame⟩ := h.page _ _ hChild
  exact ⟨new, hNew, by rw [hSame, hLevel]⟩

end SameChains

section Insert

variable {blk newitemoff : Nat} {page : BTPage D} {newitem : IndexTuple D}

theorem Fits.btInsertonpg (h : Fits le page newitemoff newitem) (hPage : tree blk = some page) :
    btInsertonpg tree blk newitemoff newitem =
      some (tree.set blk (page.inserted newitemoff newitem)) := by
  unfold Nbtree.btInsertonpg
  simp only [hPage, bind_eq_bind, bind_some]
  split
  case isFalse => rfl
  case isTrue hFirst =>
    -- only a leaf takes a new item in the first place
    have hLeaf : page.leaf := by
      by_contra hInternal
      exact Nat.ne_of_gt (h.internal (Bool.eq_false_iff.mpr hInternal)) hFirst
    have hSame : ∀ items : List (IndexTuple D), pgaddtup page.leaf items = items := by
      intro items
      cases items <;> simp [pgaddtup, hLeaf]
    rw [hSame]
    rfl

theorem sameChains_insert (hOrd : Ordered le page) (newitemoff : Nat) (newitem : IndexTuple D)
    (hPage : tree blk = some page) :
    SameChains tree (tree.set blk (page.inserted newitemoff newitem)) where
  succ := by
    funext b
    by_cases hb : b = blk
    · subst hb
      simp [Tree.succ, Tree.set, hPage, BTPage.rightmost, BTPage.inserted]
    · simp [Tree.succ, Tree.set, hb]
  hikey := by
    funext b
    by_cases hb : b = blk
    · subst hb
      simp [Tree.hikey?, Tree.set, hPage, (hOrd.inserted_data newitemoff newitem).2]
    · simp [Tree.hikey?, Tree.set, hb]
  page b old hOld := by
    by_cases hb : b = blk
    · subst hb
      obtain rfl := some.inj (hPage.symm.trans hOld)
      exact ⟨_, if_pos rfl, rfl⟩
    · exact ⟨old, (if_neg hb).trans hOld, rfl⟩

theorem set_cases {new page' : BTPage D} {b : Nat} (hb : tree.set blk page' b = some new) :
    (b = blk ∧ new = page') ∨ (b ≠ blk ∧ tree b = some new) := by
  by_cases hBlk : b = blk
  · rw [Tree.set, if_pos hBlk] at hb
    exact .inl ⟨hBlk, (some.inj hb).symm⟩
  · rw [Tree.set, if_neg hBlk] at hb
    exact .inr ⟨hBlk, hb⟩

/-- The keys a page gets by an insertion are still bounded by the high key to its left. -/
theorem ItemFits.inserted_lower (h : ItemFits le tree blk page newitemoff newitem)
    (hSound : Sound le tree) (hPage : tree blk = some page) {other : Nat} {low : Key D}
    (hNext : tree.succ other = some blk) (hLow : tree.hikey? other = some low) :
    ∀ key ∈ (page.inserted newitemoff newitem).dataKeys, le low key := by
  have hOrd := hSound.ordered blk page hPage
  obtain ⟨hNew, hOld⟩ := h.left_le hSound hPage hNext hLow
  intro key hKey
  rw [BTPage.dataKeys, (hOrd.inserted_data newitemoff newitem).1] at hKey
  rcases h.fits.mem_keys hOrd hKey with rfl | hMem
  · exact hNew
  · exact hOld key hMem

theorem Sound.insert (h : Sound le tree) [IsTrans _ le]
    (hPage : tree blk = some page) (hItem : ItemFits le tree blk page newitemoff newitem) :
    Sound le (tree.set blk (page.inserted newitemoff newitem)) := by
  have hOrd := h.ordered blk page hPage
  have hSame := sameChains_insert hOrd newitemoff newitem hPage
  obtain ⟨hData, hHikey⟩ := hOrd.inserted_data newitemoff newitem
  -- the page that a page of the new tree was
  have hWas : ∀ b new, tree.set blk (page.inserted newitemoff newitem) b = some new →
      ∃ old, tree b = some old ∧ new.level = old.level ∧ new.leaf = old.leaf ∧
        new.prev = old.prev ∧ new.hikey? = old.hikey? := by
    intro b new hb
    rcases set_cases hb with ⟨rfl, rfl⟩ | ⟨-, hOld⟩
    · exact ⟨page, hPage, rfl, rfl, rfl, hHikey⟩
    · exact ⟨new, hOld, rfl, rfl, rfl, rfl⟩
  refine ⟨?_, ?_, ?_, ?_, ?_, ?_, ?_⟩
  · have hBlk : pNone ≠ blk := by
      intro hEq
      rw [← hEq, h.metapage] at hPage
      simp at hPage
    rw [Tree.set, if_neg hBlk, h.metapage]
  · intro b new hb
    rcases set_cases hb with ⟨-, rfl⟩ | ⟨-, hOld⟩
    · exact hItem.fits.inserted_ordered hOrd
    · exact h.ordered b new hOld
  · intro b new next hb hNext
    rw [hSame.succ] at hNext
    obtain ⟨old, hOld, hLevel, -, -, hKey⟩ := hWas b new hb
    obtain ⟨right, hRight, hPrev, hRightLevel, hBound⟩ := h.sibling b old next hOld hNext
    rw [hLevel, hKey]
    by_cases hBlk : next = blk
    · subst hBlk
      obtain rfl := some.inj (hPage.symm.trans hRight)
      refine ⟨_, if_pos rfl, hPrev, hRightLevel, fun key hSome => ⟨?_, ?_⟩⟩
      · exact hItem.inserted_lower h hPage hNext (hikey?_of_page hOld ▸ hSome)
      · rw [hHikey]
        exact (hBound key hSome).2
    · exact ⟨right, (if_neg hBlk).trans hRight, hPrev, hRightLevel, hBound⟩
  · intro a b pageA pageB hA hB hLevel
    obtain ⟨oldA, hOldA, hLevelA, -⟩ := hWas a pageA hA
    obtain ⟨oldB, hOldB, hLevelB, -⟩ := hWas b pageB hB
    rw [hSame.succ]
    exact h.oneChain a b oldA oldB hOldA hOldB (by rw [← hLevelA, ← hLevelB, hLevel])
  · rw [hSame.succ]
    exact h.terminates
  · intro b new first hb hLeaf hFirst
    have hOldFirst : ∃ old, tree b = some old ∧ old.leaf = false ∧ new.level = old.level ∧
        old.dataItems.head? = some first := by
      rcases set_cases hb with ⟨rfl, rfl⟩ | ⟨-, hOld⟩
      · obtain ⟨old, hHead, hItems⟩ := hItem.fits.withItem_internal hOrd hLeaf
        rw [hData, hItems] at hFirst
        exact ⟨page, hPage, hLeaf, rfl, hHead.trans hFirst⟩
      · exact ⟨new, hOld, hLeaf, rfl, hFirst⟩
    obtain ⟨old, hOld, hOldLeaf, hLevel, hHead⟩ := hOldFirst
    obtain ⟨hLinks, hBound⟩ := h.firstDownlink b old first hOld hOldLeaf hHead
    obtain ⟨child, hChild, hChildLevel⟩ := hSame.links hLinks
    refine ⟨⟨child, hChild, by rw [hChildLevel, hLevel]⟩, fun bound hDown hLeftIn => ?_⟩
    exact hSame.leftIn_iff.mpr (hBound bound hDown (hSame.leftIn_iff.mp hLeftIn))
  · intro b new hb hLeaf itup hItup
    have hOldLink : Links tree new itup ∧ LeftIn tree itup.tid.1 fun key => le key itup.key := by
      rcases set_cases hb with ⟨rfl, rfl⟩ | ⟨-, hOld⟩
      · rw [hData] at hItup
        exact hItem.downlinks h hPage hLeaf itup hItup
      · exact h.downlink b new hOld hLeaf itup hItup
    exact ⟨hSame.links hOldLink.1, hSame.leftIn_iff.mpr hOldLink.2⟩

end Insert

section Newroot

variable {rootblk lbkno rbkno : Nat} {lpage : BTPage D}

def newrootPage (lpage : BTPage D) (lbkno rbkno : Nat) : BTPage D where
  items := [⟨(lbkno, pHikey), []⟩, ⟨(rbkno, pHikey), lpage.keyAt pHikey⟩]
  prev := pNone
  next := pNone
  level := lpage.level + 1
  leaf := false
  ignore := false

theorem sameChains_newroot (lpage : BTPage D) (lbkno rbkno : Nat) (hFresh : tree rootblk = none) :
    SameChains tree (tree.set rootblk (newrootPage lpage lbkno rbkno)) where
  succ := by
    funext b
    by_cases hb : b = rootblk
    · subst hb
      simp [Tree.succ, Tree.set, hFresh, newrootPage, BTPage.rightmost]
    · simp [Tree.succ, Tree.set, hb]
  hikey := by
    funext b
    by_cases hb : b = rootblk
    · subst hb
      simp [Tree.hikey?, Tree.set, hFresh, hikey?_eq_none, newrootPage, BTPage.rightmost]
    · simp [Tree.hikey?, Tree.set, hb]
  page b old hOld := by
    have hb : b ≠ rootblk := by
      rintro rfl
      simp [hFresh] at hOld
    exact ⟨old, (if_neg hb).trans hOld, rfl⟩

theorem newrootPage_ordered (hFull : le (lpage.keyAt pHikey) (lpage.keyAt pHikey)) :
    Ordered le (newrootPage lpage lbkno rbkno) := by
  have hRight : (newrootPage lpage lbkno rbkno).rightmost := rfl
  have hNone := hikey?_eq_none hRight
  have hKeys : (newrootPage lpage lbkno rbkno).dataKeys = [lpage.keyAt pHikey] := rfl
  refine ⟨rfl, by simp [newrootPage], by simp [hRight], fun _ => by simp [newrootPage,
    BTPage.dataItems, BTPage.firstDataKey, BTPage.rightmost, pHikey], ?_, by simp [hNone], ?_,
    by simp [hNone]⟩
  · simpa [hKeys] using hFull
  · simp [hKeys]

theorem Sound.newroot (h : Sound le tree) [IsTrans _ le]
    (hFresh : tree rootblk = none) (hBlk : rootblk ≠ pNone) (hLeft : tree lbkno = some lpage)
    (hNext : tree.succ lbkno = some rbkno) (hFirst : lpage.prev = pNone)
    (hTop : ∀ blk page, tree blk = some page → page.level ≤ lpage.level) :
    Sound le (tree.set rootblk (newrootPage lpage lbkno rbkno)) := by
  have hSame := sameChains_newroot lpage lbkno rbkno hFresh
  obtain ⟨right, hRight, -, hLevel, -⟩ := h.sibling lbkno lpage rbkno hLeft hNext
  obtain ⟨lpage', hLeft', hNotRightmost, -⟩ := succ_eq_some.mp hNext
  obtain rfl := some.inj (hLeft.symm.trans hLeft')
  have hOrd := h.ordered lbkno lpage hLeft
  obtain ⟨hikey, hHikey, rfl⟩ := hOrd.hikey?_eq hNotRightmost
  have hNothing : ∀ other, ¬Before tree.succ other lbkno := by
    intro other hBefore
    obtain ⟨last, -, hLast⟩ := Relation.TransGen.tail'_iff.mp hBefore
    exact h.succ_ne_of_leftmost hLeft hFirst last hLast
  refine ⟨?_, ?_, ?_, ?_, ?_, ?_, ?_⟩
  · rw [Tree.set, if_neg hBlk.symm, h.metapage]
  · intro b new hb
    rcases set_cases hb with ⟨-, rfl⟩ | ⟨-, hOld⟩
    · exact newrootPage_ordered (hOrd.hikey_full _ hHikey)
    · exact h.ordered b new hOld
  · intro b new next hb hNext'
    rw [hSame.succ] at hNext'
    rcases set_cases hb with ⟨rfl, -⟩ | ⟨-, hOld⟩
    · simp [Tree.succ, hFresh] at hNext'
    · obtain ⟨neighbour, hNeighbour, hRest⟩ := h.sibling b new next hOld hNext'
      have hNe : next ≠ rootblk := by
        rintro rfl
        simp [hFresh] at hNeighbour
      exact ⟨neighbour, (if_neg hNe).trans hNeighbour, hRest⟩
  · intro a b pageA pageB hA hB hSameLevel
    rw [hSame.succ]
    rcases set_cases hA with ⟨rfl, rfl⟩ | ⟨-, hOldA⟩ <;>
      rcases set_cases hB with ⟨rfl, rfl⟩ | ⟨-, hOldB⟩
    · exact .inl rfl
    · have := hTop b pageB hOldB
      simp only [newrootPage] at hSameLevel
      omega
    · have := hTop a pageA hOldA
      simp only [newrootPage] at hSameLevel
      omega
    · exact h.oneChain a b pageA pageB hOldA hOldB hSameLevel
  · rw [hSame.succ]
    exact h.terminates
  · intro b new first hb hLeaf hHead
    rcases set_cases hb with ⟨rfl, rfl⟩ | ⟨-, hOld⟩
    · obtain rfl : ⟨(lbkno, pHikey), []⟩ = first := some.inj hHead
      refine ⟨hSame.links ⟨lpage, hLeft, rfl⟩, fun bound _ _ => ?_⟩
      exact hSame.leftIn_iff.mpr fun other _ hBefore => absurd hBefore (hNothing other)
    · obtain ⟨hLinks, hBound⟩ := h.firstDownlink b new first hOld hLeaf hHead
      refine ⟨hSame.links hLinks, fun bound hDown hLeftIn => ?_⟩
      exact hSame.leftIn_iff.mpr (hBound bound hDown (hSame.leftIn_iff.mp hLeftIn))
  · intro b new hb hLeaf itup hItup
    rcases set_cases hb with ⟨rfl, rfl⟩ | ⟨-, hOld⟩
    · obtain rfl : itup = ⟨(rbkno, pHikey), lpage.keyAt pHikey⟩ := mem_singleton.mp hItup
      refine ⟨hSame.links ⟨right, hRight, by rw [hLevel]; rfl⟩, hSame.leftIn_iff.mpr ?_⟩
      exact h.leftIn_next hNext (hikey?_of_page hLeft ▸ hHikey)
    · obtain ⟨hLinks, hBelow⟩ := h.downlink b new hOld hLeaf itup hItup
      exact ⟨hSame.links hLinks, hSame.leftIn_iff.mpr hBelow⟩

end Newroot

/-! ## Runs of events -/

/-- The pages of `tree` are in `tree'` on their levels, and what bounds the high keys to the left of
one bounds them still. -/
def Keeps (le : Key D → Key D → Prop) (tree tree' : Tree D) : Prop :=
  ∀ blk page, tree blk = some page →
    (∃ page', tree' blk = some page' ∧ page'.level = page.level) ∧
      ∀ bound, DownClosed le bound → LeftIn tree blk bound → LeftIn tree' blk bound

theorem SameChains.keeps {tree' : Tree D} (h : SameChains tree tree') : Keeps le tree tree' :=
  fun blk page hPage => ⟨h.page blk page hPage, fun _ _ => h.leftIn_iff.mpr⟩

theorem Sound.apply (h : Sound le tree) [IsTrans _ le]
    {event : Event D} (hAllowed : Allowed le tree event) :
    Sound le (tree.apply event) ∧ Keeps le tree (tree.apply event) := by
  cases event with
  | split blk rightblk firstright newitemoff newitem newitemonleft =>
    obtain ⟨hFresh, hBlk, page, hPage, hPoint, hItem⟩ := hAllowed
    obtain ⟨tree', left, right, hikey, hSplit, hStep⟩ :=
      h.splitStep hPage hFresh hBlk hPoint hItem
    simp only [Tree.apply, hSplit, getD_some]
    refine ⟨hStep.sound h, fun b old hOld => ⟨hStep.page_exists hOld, ?_⟩⟩
    have hNe : b ≠ rightblk := by
      rintro rfl
      simp [hFresh] at hOld
    exact fun bound hDown => (hStep.leftIn_iff h hNe hDown).mpr
  | insert blk newitemoff itup =>
    obtain ⟨page, hPage, hItem⟩ := hAllowed
    simp only [Tree.apply, hItem.fits.btInsertonpg hPage, getD_some]
    exact ⟨h.insert hPage hItem,
      (sameChains_insert (h.ordered blk page hPage) newitemoff itup hPage).keeps⟩
  | newroot rootblk lbkno rbkno =>
    obtain ⟨hFresh, hBlk, lpage, hLeft, hNext, hFirst, hTop⟩ := hAllowed
    have hNew : btNewroot tree rootblk lbkno rbkno =
        some (tree.set rootblk (newrootPage lpage lbkno rbkno)) := by
      simp [btNewroot, hLeft, newrootPage]
    simp only [Tree.apply, hNew, getD_some]
    exact ⟨h.newroot hFresh hBlk hLeft hNext hFirst hTop,
      (sameChains_newroot lpage lbkno rbkno hFresh).keeps⟩

theorem Keeps.refl (tree : Tree D) : Keeps le tree tree :=
  fun _ page hPage => ⟨⟨page, hPage, rfl⟩, fun _ _ hLeft => hLeft⟩

theorem Keeps.trans {tree' tree'' : Tree D} (h : Keeps le tree tree') (h' : Keeps le tree' tree'') :
    Keeps le tree tree'' := by
  intro blk page hPage
  obtain ⟨⟨page', hPage', hLevel⟩, hLeft⟩ := h blk page hPage
  obtain ⟨⟨page'', hPage'', hLevel'⟩, hLeft'⟩ := h' blk page' hPage'
  exact ⟨⟨page'', hPage'', hLevel'.trans hLevel⟩,
    fun bound hDown hOld => hLeft' bound hDown (hLeft bound hDown hOld)⟩

theorem Sound.applyAll (h : Sound le tree) [IsTrans _ le]
    (events : List (Event D)) (hAllowed : Lib.AllSteps Tree.apply (Allowed le) tree events) :
    Sound le (events.foldl Tree.apply tree) ∧ Keeps le tree (events.foldl Tree.apply tree) := by
  induction events generalizing tree with
  | nil => exact ⟨h, Keeps.refl tree⟩
  | cons event events ih =>
    obtain ⟨hSound, hKeeps⟩ := h.apply hAllowed.1
    obtain ⟨hLast, hRest⟩ := ih hSound hAllowed.2
    exact ⟨hLast, hKeeps.trans hRest⟩

end PgTuning.Nbtree
