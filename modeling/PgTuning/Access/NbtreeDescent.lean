import PgTuning.Access.NbtreeEvents

/-!
# A descent ends on the right leaf

A reader that comes to a page knows one thing of it: no high key to the left of the page, on its
level, is at least the scan key (or greater, for `nextkey`). Other backends keep that true between
two visits, and each visit hands it on: a step to the right goes past a high key that is left of the
scan key, and the downlink that the binary search chooses has such a key, or is the first of its
page. On a leaf it says that nothing wanted is to the left.
-/

namespace PgTuning.Nbtree

open Lib.Chain List Bool Option

variable {D : Type}

/-! ## The binary search on a page -/

/-- The loop ends where it cannot go on: what is just left of the result, if anything was tested,
says to go right, and the result itself does not. -/
theorem binsrchLoop_spec (goRight : Nat → Bool) (fuel low high : Nat) (hLe : low ≤ high)
    (hFuel : high ≤ low + fuel) :
    low ≤ binsrchLoop goRight fuel low high ∧ binsrchLoop goRight fuel low high ≤ high ∧
      (binsrchLoop goRight fuel low high = low ∨
        goRight (binsrchLoop goRight fuel low high - 1)) ∧
      (binsrchLoop goRight fuel low high = high ∨
        goRight (binsrchLoop goRight fuel low high) = false) := by
  induction fuel generalizing low high with
  | zero =>
    obtain rfl : low = high := by omega
    simp [binsrchLoop]
  | succ fuel ih =>
    rw [binsrchLoop]
    split
    case isFalse =>
      obtain rfl : low = high := by omega
      simp
    case isTrue hLess =>
      have hMid : low ≤ low + (high - low) / 2 ∧ low + (high - low) / 2 < high := by omega
      dsimp only
      generalize low + (high - low) / 2 = mid at hMid
      cases hTest : goRight mid with
      | true =>
        obtain ⟨hLow, hHigh, hBefore, hAt⟩ := ih (mid + 1) high (by omega) (by omega)
        simp only [if_true]
        refine ⟨by omega, hHigh, .inr ?_, hAt⟩
        rcases hBefore with hEq | hGo
        · rw [hEq]
          exact hTest
        · exact hGo
      | false =>
        obtain ⟨hLow, hHigh, hBefore, hAt⟩ := ih low mid (by omega) (by omega)
        simp only [false_eq_true, if_false]
        refine ⟨hLow, by omega, hBefore, .inr ?_⟩
        rcases hAt with hEq | hStop
        · rw [hEq]
          exact hTest
        · exact hStop

section Visit

variable (cols : List (Column D)) (scankey : Key D) (nextkey : Bool)
  {le : Key D → Key D → Prop} {page : BTPage D}

theorem btCompare_first (hLeaf : page.leaf = false) :
    cmpval nextkey ≤ btCompare cols scankey page page.firstDataKey := by
  simp only [btCompare, hLeaf, Bool.not_false, BEq.rfl, Bool.and_self, if_true]
  cases nextkey <;> decide

theorem btCompare_other {offnum : Nat} (h : page.leaf ∨ offnum ≠ page.firstDataKey) :
    btCompare cols scankey page offnum = compareKey cols scankey (page.keyAt offnum) := by
  rw [btCompare]
  rcases h with hLeaf | hOff
  · simp [hLeaf]
  · simp [hOff]

/-- The downlink that `_bt_binsrch` chooses is the first of its page, or its key is left of the
scan key. -/
theorem btBinsrch_internal (hOrd : Ordered le page) (hLeaf : page.leaf = false) :
    ∃ itup, page.item? (btBinsrch cols scankey nextkey page) = some itup ∧
      (page.dataItems.head? = some itup ∨
        itup ∈ page.dataItems.tail ∧ ¬Wanted cols scankey nextkey itup.key) := by
  have hLength := hOrd.length_dataItems
  have hData := length_pos_iff.mpr (hOrd.downlink_present hLeaf)
  have hFirst := btCompare_first cols scankey nextkey hLeaf
  unfold btBinsrch
  simp only [show ¬page.maxOffset < page.firstDataKey by omega, if_false, hLeaf, false_eq_true]
  generalize hTest : (fun mid => decide (cmpval nextkey ≤ btCompare cols scankey page mid)) = test
  obtain ⟨hLow, hHigh, hBefore, hAt⟩ := binsrchLoop_spec test
    (page.maxOffset + 1 - page.firstDataKey) page.firstDataKey (page.maxOffset + 1) (by omega)
    (by omega)
  generalize binsrchLoop test (page.maxOffset + 1 - page.firstDataKey) page.firstDataKey
    (page.maxOffset + 1) = result at hLow hHigh hBefore hAt
  -- the first item says to go right, so the search does not end on it
  have hPast : page.firstDataKey < result := by
    rcases hAt with hEnd | hStop
    · omega
    · refine Nat.lt_of_le_of_ne hLow fun hEq => ?_
      simp [← hTest, ← hEq, hFirst] at hStop
  have hBound : result - 1 - page.firstDataKey < page.dataItems.length := by omega
  refine ⟨page.dataItems[result - 1 - page.firstDataKey], ?_, ?_⟩
  · rw [item?_eq_dataItems (by omega), getElem?_eq_getElem hBound]
  · by_cases hHead : result - 1 = page.firstDataKey
    · left
      rw [head?_eq_getElem?]
      simp [hHead]
    · right
      constructor
      · rw [mem_iff_getElem]
        refine ⟨result - 1 - page.firstDataKey - 1, by simp; omega, ?_⟩
        rw [getElem_tail]
        congr 1
        omega
      · have hGo : test (result - 1) := hBefore.resolve_left (by omega)
        rw [← hTest, decide_eq_true_iff, btCompare_other cols scankey (.inr hHead)] at hGo
        rw [not_wanted_iff]
        simpa [BTPage.keyAt, item?_eq_dataItems (show page.firstDataKey ≤ result - 1 by omega),
          getElem?_eq_getElem hBound] using hGo

/-- What a visit does: step past a high key that is left of the scan key, end on a leaf, or follow
a downlink. It never fails. -/
theorem visit_cases (hOrd : Ordered le page) :
    (visit cols scankey nextkey page = .moveRight page.next ∧ page.rightmost = false ∧
        ¬Wanted cols scankey nextkey (page.keyAt pHikey)) ∨
      (visit cols scankey nextkey page = .found ∧ page.leaf) ∨
      (page.leaf = false ∧ ∃ offset itup,
        visit cols scankey nextkey page = .descend offset itup.tid.1 ∧
        (page.dataItems.head? = some itup ∨
          itup ∈ page.dataItems.tail ∧ ¬Wanted cols scankey nextkey itup.key)) := by
  unfold visit
  simp only [hOrd.live, Bool.false_or]
  split
  case isTrue hMove =>
    simp only [and_eq_true, not_eq_true', decide_eq_true_eq] at hMove
    refine .inl ⟨rfl, hMove.1, ?_⟩
    rw [not_wanted_iff, ← btCompare_other cols scankey (.inr ?_)]
    · exact hMove.2
    · simp [BTPage.firstDataKey, hMove.1]
  case isFalse =>
    cases hLeaf : page.leaf with
    | true => exact .inr (.inl ⟨by simp, rfl⟩)
    | false =>
      obtain ⟨itup, hItup, hChoice⟩ := btBinsrch_internal cols scankey nextkey hOrd hLeaf
      exact .inr (.inr ⟨rfl, btBinsrch cols scankey nextkey page, itup, by simp [hItup], hChoice⟩)

end Visit

/-! ## The descent -/

section Descent

variable {cols : List (Column D)} (hCols : ∀ col ∈ cols, col.Lawful) {scankey : Key D}
  {nextkey : Bool} {tree : Tree D} {blk : Nat} {page : BTPage D} {tree' : Tree D}

/-- What a reader knows of the page it comes to. -/
def Safe (cols : List (Column D)) (scankey : Key D) (nextkey : Bool) (tree : Tree D) (blk : Nat) :
    Prop :=
  LeftIn tree blk fun key => ¬Wanted cols scankey nextkey key

include hCols

theorem downClosed_not_wanted :
    DownClosed (KeyLe cols) fun key => ¬Wanted cols scankey nextkey key :=
  fun _ _ hLe hNot => not_wanted_of_le hCols hLe hNot

/-- A visit ends the descent on a leaf, or hands on to a page of which the reader knows the same:
the right sibling, or a page one level below. -/
theorem visit_safe (hSound : Sound (KeyLe cols) tree) (hPage : tree blk = some page)
    (hSafe : Safe cols scankey nextkey tree blk) :
    (visit cols scankey nextkey page = .found ∧ page.leaf) ∨
      ∃ next nextPage, tree next = some nextPage ∧ Safe cols scankey nextkey tree next ∧
        ((visit cols scankey nextkey page = .moveRight next ∧ tree.succ blk = some next ∧
            nextPage.level = page.level) ∨
          (∃ offset, visit cols scankey nextkey page = .descend offset next) ∧
            nextPage.level + 1 = page.level) := by
  have hOrd := hSound.ordered blk page hPage
  rcases visit_cases cols scankey nextkey hOrd with
    ⟨hVisit, hRight, hNot⟩ | hFound | ⟨hLeaf, offset, itup, hVisit, hChoice⟩
  · have hNext : tree.succ blk = some page.next := succ_eq_some.mpr ⟨page, hPage, hRight, rfl⟩
    obtain ⟨right, hAt, -, hLevel, -⟩ := hSound.sibling blk page page.next hPage hNext
    refine .inr ⟨page.next, right, hAt, ?_, .inl ⟨hVisit, hNext, hLevel⟩⟩
    obtain ⟨hikey, hHikey, rfl⟩ := hOrd.hikey?_eq hRight
    intro other key hBefore hKey
    rcases (before_next_iff hSound.succ_injective hNext).mp hBefore with rfl | hFar
    · rw [hikey?_of_page hPage, hHikey] at hKey
      exact some.inj hKey ▸ hNot
    · exact hSafe other key hFar hKey
  · exact .inl hFound
  · have hLink : Links tree page itup ∧ Safe cols scankey nextkey tree itup.tid.1 := by
      rcases hChoice with hFirst | ⟨hTail, hNot⟩
      · obtain ⟨hLinks, hBound⟩ := hSound.firstDownlink blk page itup hPage hLeaf hFirst
        exact ⟨hLinks, hBound _ (downClosed_not_wanted hCols) hSafe⟩
      · obtain ⟨hLinks, hBelow⟩ := hSound.downlink blk page hPage hLeaf itup hTail
        exact ⟨hLinks, fun other key hBefore hKey =>
          not_wanted_of_le hCols (hBelow other key hBefore hKey) hNot⟩
    obtain ⟨⟨child, hChild, hLevel⟩, hChildSafe⟩ := hLink
    exact .inr ⟨itup.tid.1, child, hChild, hChildSafe, .inr ⟨⟨offset, hVisit⟩, hLevel⟩⟩

/-- The descent from `blk` ends: with enough visits it returns a leaf of a sound tree, and nothing
wanted is to the left of it. -/
def Arrives (cols : List (Column D)) (scankey : Key D) (nextkey : Bool) (tree : Tree D) (blk : Nat)
    (stack : List BTStackData) (schedule : List (List (Event D))) : Prop :=
  ∃ visits stack' leaf tree' page,
    (∀ n, visits ≤ n → btSearch cols scankey nextkey n tree blk stack schedule =
      some (stack', leaf, tree')) ∧
    tree' leaf = some page ∧ page.leaf = true ∧ Sound (KeyLe cols) tree' ∧
    Safe cols scankey nextkey tree' leaf

omit hCols in
theorem Arrives.step {next : Nat} {stack stack' : List BTStackData}
    {schedule schedule' : List (List (Event D))}
    (h : Arrives cols scankey nextkey tree' next stack' schedule')
    (hStep : ∀ n, btSearch cols scankey nextkey (n + 1) tree blk stack schedule =
      btSearch cols scankey nextkey n tree' next stack' schedule') :
    Arrives cols scankey nextkey tree blk stack schedule := by
  obtain ⟨visits, last, leaf, final, leafPage, hRun, hRest⟩ := h
  refine ⟨visits + 1, last, leaf, final, leafPage, fun n hn => ?_, hRest⟩
  obtain ⟨m, rfl⟩ : ∃ m, n = m + 1 := ⟨n - 1, by omega⟩
  rw [hStep m]
  exact hRun m (by omega)

/-- The step lemma: if the descent ends from every page that the visit may hand on to, it ends from
this page. -/
theorem arrives_of_next {stack : List BTStackData} {schedule : List (List (Event D))}
    (hTree : (schedule.headD []).foldl Tree.apply tree = tree') (hSound : Sound (KeyLe cols) tree')
    (hPage : tree' blk = some page) (hSafe : Safe cols scankey nextkey tree' blk)
    (hNext : ∀ next nextPage stack', tree' next = some nextPage →
      Safe cols scankey nextkey tree' next →
      ((tree'.succ blk = some next ∧ nextPage.level = page.level) ∨
        nextPage.level + 1 = page.level) →
      Arrives cols scankey nextkey tree' next stack' schedule.tail) :
    Arrives cols scankey nextkey tree blk stack schedule := by
  rcases visit_safe hCols hSound hPage hSafe with ⟨hFound, hLeaf⟩ | ⟨next, nextPage, hAt, hNextSafe,
    ⟨hVisit, hSucc, hLevel⟩ | ⟨⟨offset, hVisit⟩, hLevel⟩⟩
  · refine ⟨1, stack, blk, tree', page, fun n hn => ?_, hPage, hLeaf, hSound, hSafe⟩
    obtain ⟨m, rfl⟩ : ∃ m, n = m + 1 := ⟨n - 1, by omega⟩
    simp only [btSearch, hTree, hPage, hFound, bind_eq_bind, bind_some]
  · refine (hNext next nextPage stack hAt hNextSafe (.inl ⟨hSucc, hLevel⟩)).step fun n => ?_
    simp only [btSearch, hTree, hPage, hVisit, bind_eq_bind, bind_some]
  · refine (hNext next nextPage (⟨blk, offset, next⟩ :: stack) hAt hNextSafe (.inr hLevel)).step
      fun n => ?_
    simp only [btSearch, hTree, hPage, hVisit, bind_eq_bind, bind_some]

/-- When the tree changes no more the descent ends: by induction on the level, and on one level
along the chain. -/
theorem arrives_of_quiet (hSound : Sound (KeyLe cols) tree) (level : Nat) :
    ∀ blk page stack, tree blk = some page → page.level = level →
      Safe cols scankey nextkey tree blk →
      Arrives cols scankey nextkey tree blk stack [] := by
  induction level using Nat.strongRecOn with
  | _ level ihLevel =>
    intro blk
    induction blk using hSound.terminates.induction with
    | _ blk ih =>
      intro page stack hPage hLevel hSafe
      refine arrives_of_next hCols rfl hSound hPage hSafe ?_
      rintro next nextPage stack' hAt hNextSafe (⟨hSucc, hSame⟩ | hBelow)
      · exact ih next hSucc nextPage stack' hAt (hSame.trans hLevel) hNextSafe
      · exact ihLevel nextPage.level (by omega) next nextPage stack' hAt rfl hNextSafe

/-- The run lemma: by induction on the schedule, one batch of events before each visit. -/
theorem arrives (schedule : List (List (Event D))) (hSound : Sound (KeyLe cols) tree)
    (hSchedule : Lib.AllSteps Tree.apply (Allowed (KeyLe cols)) tree schedule.flatten) :
    ∀ blk page stack, tree blk = some page → Safe cols scankey nextkey tree blk →
      Arrives cols scankey nextkey tree blk stack schedule := by
  induction schedule generalizing tree with
  | nil =>
    intro blk page stack hPage hSafe
    exact arrives_of_quiet hCols hSound page.level blk page stack hPage rfl hSafe
  | cons batch schedule ih =>
    intro blk page stack hPage hSafe
    rw [flatten_cons, Lib.allSteps_append] at hSchedule
    have := keyLe_trans hCols
    obtain ⟨hSound', hKeeps⟩ := hSound.applyAll batch hSchedule.1
    obtain ⟨⟨page', hPage', -⟩, hLeft⟩ := hKeeps blk page hPage
    refine arrives_of_next hCols rfl hSound' hPage' (hLeft _ (downClosed_not_wanted hCols) hSafe) ?_
    intro next nextPage stack' hAt hNextSafe _
    exact ih hSound' hSchedule.2 next nextPage stack' hAt hNextSafe

theorem Safe.not_wanted (hSound : Sound (KeyLe cols) tree)
    (hSafe : Safe cols scankey nextkey tree blk) {other : Nat} (hPage : tree other = some page)
    (hLeaf : page.leaf) (hBefore : Before tree.succ other blk) :
    ∀ itup ∈ page.dataItems, ¬Wanted cols scankey nextkey itup.key := by
  intro itup hItup
  obtain ⟨next, hNext, -⟩ := Relation.TransGen.head'_iff.mp hBefore
  obtain ⟨hikey, hHikey⟩ := hSound.exists_hikey hNext
  have hKey : itup.key ∈ page.dataKeys := by
    rw [BTPage.dataKeys, hLeaf]
    exact mem_map_of_mem hItup
  refine not_wanted_of_le hCols ?_ (hSafe other hikey hBefore hHikey)
  exact (hSound.ordered other page hPage).le_hikey hikey (hikey?_of_page hPage ▸ hHikey) _ hKey

end Descent

/-- **The descent ends on the right leaf.** It starts on a page that was the leftmost of its level
when the reader learned of it, as the root is. Under any schedule of allowed events it ends on a
leaf, and every wanted item is on that leaf or to its right and none is to its left. -/
theorem btSearch_finds_leaf (cols : List (Column D)) (hCols : ∀ col ∈ cols, col.Lawful)
    (scankey : Key D) (nextkey : Bool) (tree : Tree D) (hSound : Sound (KeyLe cols) tree)
    (root : Nat) (rootPage : BTPage D) (hRoot : tree root = some rootPage)
    (hLeftmost : rootPage.prev = pNone) (schedule : List (List (Event D)))
    (hSchedule : Lib.AllSteps Tree.apply (Allowed (KeyLe cols)) tree schedule.flatten) :
    ∃ visits stack leaf tree' page,
      (∀ n, visits ≤ n → btSearch cols scankey nextkey n tree root [] schedule =
        some (stack, leaf, tree')) ∧
      tree' leaf = some page ∧ page.leaf = true ∧
      ∀ blk other, tree' blk = some other → other.leaf = true →
        ∀ itup ∈ other.dataItems, Wanted cols scankey nextkey itup.key →
          (blk = leaf ∨ Before tree'.succ leaf blk) ∧ ¬Before tree'.succ blk leaf := by
  have hSafe : Safe cols scankey nextkey tree root := by
    intro other key hBefore
    obtain ⟨last, -, hLast⟩ := Relation.TransGen.tail'_iff.mp hBefore
    exact absurd hLast (hSound.succ_ne_of_leftmost hRoot hLeftmost last)
  obtain ⟨visits, stack, leaf, tree', page, hRun, hPage, hLeaf, hSound', hSafe'⟩ :=
    arrives hCols schedule hSound hSchedule root rootPage [] hRoot hSafe
  refine ⟨visits, stack, leaf, tree', page, hRun, hPage, hLeaf, ?_⟩
  intro blk other hOther hOtherLeaf itup hItup hWanted
  have hNot : ¬Before tree'.succ blk leaf := fun hBefore =>
    hSafe'.not_wanted hCols hSound' hOther hOtherLeaf hBefore itup hItup hWanted
  have hSameLevel : blk = leaf ∨ Before tree'.succ blk leaf ∨ Before tree'.succ leaf blk := by
    refine hSound'.oneChain blk leaf other page hOther hPage ?_
    rw [(hSound'.ordered blk other hOther).leaf_iff.mp hOtherLeaf,
      (hSound'.ordered leaf page hPage).leaf_iff.mp hLeaf]
  exact ⟨hSameLevel.imp_right fun h => h.resolve_left hNot, hNot⟩

/-! ## A descent across a split without a downlink -/

def intColumn : Column Int where
  cmp a b := if a < b then -1 else if a = b then 0 else 1
  desc := false
  nullsFirst := false

theorem intColumn_lawful : intColumn.Lawful where
  compares := {
    swap := by
      intro a b
      simp only [intColumn]
      split <;> split <;> (try split) <;> (try split) <;> omega
    trans := by
      intro a b c
      simp only [intColumn]
      split <;> split <;> (try split) <;> (try split) <;> (try split) <;> omega }
  negatable a b := by
    simp only [intColumn]
    split
    · decide
    · split <;> decide

def intItem (n : Int) : IndexTuple Int := ⟨(0, 1), [some n]⟩

def oneLeaf : Tree Int := fun blk =>
  if blk = 1 then some ⟨[intItem 1, intItem 3], pNone, pNone, 0, true, false⟩ else none

def firstSplit : List (Event Int) := [.split 1 2 2 3 (intItem 5) false, .newroot 3 1 2]

def secondSplit : Event Int := .split 2 4 2 3 (intItem 7) false

instance (cols : List (Column Int)) (key key' : Key Int) : Decidable (KeyLe cols key key') :=
  inferInstanceAs (Decidable (_ ∧ _ ∧ _))

theorem oneLeaf_cases {blk : Nat} {page : BTPage Int} (h : oneLeaf blk = some page) :
    blk = 1 ∧ page = ⟨[intItem 1, intItem 3], pNone, pNone, 0, true, false⟩ := by
  unfold oneLeaf at h
  split at h
  case isTrue hBlk => exact ⟨hBlk, (some.inj h).symm⟩
  case isFalse => simp at h

theorem oneLeaf_succ (blk : Nat) : oneLeaf.succ blk = none := by
  cases hPage : oneLeaf blk with
  | none => simp [Tree.succ, hPage]
  | some page =>
    obtain ⟨-, rfl⟩ := oneLeaf_cases hPage
    simp [Tree.succ, hPage, BTPage.rightmost]

theorem oneLeaf_sound : Sound (KeyLe [intColumn]) oneLeaf where
  metapage := rfl
  ordered blk page hPage := by
    obtain ⟨-, rfl⟩ := oneLeaf_cases hPage
    exact ⟨rfl, by decide, by decide, by decide, by decide, (fun _ hSome => by cases hSome), by decide,
      (fun _ hSome => by cases hSome)⟩
  sibling blk page next _ hNext := by simp [oneLeaf_succ] at hNext
  oneChain a b pageA pageB hA hB _ := .inl ((oneLeaf_cases hA).1.trans (oneLeaf_cases hB).1.symm)
  terminates := ⟨fun blk => ⟨blk, fun _ hNext => by simp [oneLeaf_succ] at hNext⟩⟩
  firstDownlink blk page first hPage hLeaf := by
    obtain ⟨-, rfl⟩ := oneLeaf_cases hPage
    simp at hLeaf
  downlink blk page hPage hLeaf := by
    obtain ⟨-, rfl⟩ := oneLeaf_cases hPage
    simp at hLeaf

theorem firstSplit_allowed :
    Lib.AllSteps Tree.apply (Allowed (KeyLe [intColumn])) oneLeaf firstSplit := by
  refine ⟨⟨rfl, by decide, _, rfl, ⟨by decide, by decide, by decide, by decide⟩, ?_⟩, ?_, trivial⟩
  · refine ⟨⟨by decide, by decide, by decide, by decide, by decide, fun _ hSome => by cases hSome⟩,
      ?_, fun hLeaf => absurd hLeaf (by decide)⟩
    intro left hikey hNext
    simp [oneLeaf_succ] at hNext
  · refine ⟨rfl, by decide, _, rfl, rfl, rfl, ?_⟩
    intro blk page hPage
    rcases set_cases hPage with ⟨-, rfl⟩ | ⟨-, hPage⟩
    · decide
    · rcases set_cases hPage with ⟨-, rfl⟩ | ⟨-, hPage⟩
      · decide
      · obtain ⟨-, rfl⟩ := oneLeaf_cases hPage
        decide

def twoLevels : Tree Int := firstSplit.foldl Tree.apply oneLeaf

theorem intColumns_lawful : ∀ col ∈ [intColumn], col.Lawful := by
  simpa using intColumn_lawful

theorem twoLevels_sound : Sound (KeyLe [intColumn]) twoLevels :=
  have := keyLe_trans intColumns_lawful
  (oneLeaf_sound.applyAll firstSplit firstSplit_allowed).1

theorem secondSplit_allowed :
    Lib.AllSteps Tree.apply (Allowed (KeyLe [intColumn])) twoLevels [secondSplit] := by
  refine ⟨⟨rfl, by decide, _, rfl, ⟨by decide, by decide, by decide, by decide⟩, ?_⟩, trivial⟩
  refine ⟨⟨by decide, by decide, by decide, by decide, by decide, fun _ hSome => by cases hSome⟩,
      ?_, fun hLeaf => absurd hLeaf (by decide)⟩
  intro left hikey hNext hHikey
  obtain rfl := twoLevels_sound.succ_injective left 1 2 hNext rfl
  obtain rfl : [some 3] = hikey := some.inj hHikey
  decide

/-- The second split comes between the visits of the root and of the leaf that the root leads to,
and its downlink is missing: the descent for 6 goes on to the new page by the right link. -/
theorem btSearch_finds_leaf_twoLevels :
    btSearch [intColumn] [some 6] false 3 twoLevels 3 [] [[], [secondSplit]] =
        some ([⟨3, 2, 2⟩], 4, twoLevels.apply secondSplit) ∧
      ∃ visits stack leaf tree' page,
        (∀ n, visits ≤ n → btSearch [intColumn] [some 6] false n twoLevels 3 []
          [[], [secondSplit]] = some (stack, leaf, tree')) ∧
        tree' leaf = some page ∧ page.leaf = true ∧
        ∀ blk other, tree' blk = some other → other.leaf = true →
          ∀ itup ∈ other.dataItems, Wanted [intColumn] [some 6] false itup.key →
            (blk = leaf ∨ Before tree'.succ leaf blk) ∧ ¬Before tree'.succ blk leaf :=
  ⟨rfl, btSearch_finds_leaf [intColumn] intColumns_lawful [some 6] false twoLevels twoLevels_sound 3
    _ rfl rfl [[], [secondSplit]] secondSplit_allowed⟩

end PgTuning.Nbtree
