import PgTuning.Executor.MergeJoinGroup

/-!
# The turns of a merge join

Every turn of the loop emits a part of what is pending, keeps `Pending` and makes the
machine smaller in a lexicographic order: an outer tuple is used up, or the machine moves
on to a later stage with the same outer tuple, or an inner tuple is used up in the same
stage. There is one lemma for each state; those of a group of equal keys and of the ends of
the inputs are in `MergeJoinGroupSteps`.
-/

namespace PgTuning.Executor

open Lib.ThreeWay List MergeJoinState MergeJoin Nat

variable {O I K R : Type} {node : MergeJoin O I K R}

/-! ## The order of the states -/

/-- The stage of a state: with the same outer tuple a machine only goes down. -/
def MJState.rank : MJState → Nat
  | .initializeOuter => 6
  | .initializeInner => 5
  | .testOuter => 4
  | .skipTest | .skipOuterAdvance | .skipInnerAdvance => 3
  | .joinTuples | .nextInner => 2
  | .nextOuter => 1
  | .endOuter | .endInner => 0

/-- What a turn may still do before it uses up a tuple. -/
def MergeJoinState.turns (st : MergeJoinState O I K) : Nat :=
  match st.joinState with
  | .skipTest | .joinTuples => 2
  | .skipOuterAdvance | .nextOuter | .endInner => if st.matchedOuter then 0 else 1
  | .skipInnerAdvance | .nextInner | .endOuter => if st.matchedInner then 0 else 1
  | _ => 0

/-- The lexicographic weight of a state. -/
def MergeJoinState.weight (st : MergeJoinState O I K) : Nat × Nat × Nat × Nat :=
  (st.outerPlan.length, st.joinState.rank, st.innerPlan.length, st.turns)

def Smaller (st' st : MergeJoinState O I K) : Prop :=
  Prod.Lex (· < ·) (Prod.Lex (· < ·) (Prod.Lex (· < ·) (· < ·))) st'.weight st.weight

theorem smaller_wf : WellFounded (Smaller : MergeJoinState O I K → MergeJoinState O I K → Prop) := by
  have hNat : WellFounded (fun a b : Nat => a < b) := lt_wfRel.wf
  exact InvImage.wf weight (hNat.prod_lex (hNat.prod_lex (hNat.prod_lex hNat)))

section Smaller

variable {st st' : MergeJoinState O I K}

theorem smaller_iff : Smaller st' st ↔
    st'.outerPlan.length < st.outerPlan.length ∨ st'.outerPlan.length = st.outerPlan.length ∧
      (st'.joinState.rank < st.joinState.rank ∨ st'.joinState.rank = st.joinState.rank ∧
        (st'.innerPlan.length < st.innerPlan.length ∨
          st'.innerPlan.length = st.innerPlan.length ∧ st'.turns < st.turns)) := by
  simp only [Smaller, weight, Prod.lex_iff]

theorem smaller_outer (h : st'.outerPlan.length < st.outerPlan.length) : Smaller st' st :=
  smaller_iff.mpr (Or.inl h)

theorem smaller_rank (hOuter : st'.outerPlan.length ≤ st.outerPlan.length)
    (h : st'.joinState.rank < st.joinState.rank) : Smaller st' st := by
  rw [smaller_iff]
  omega

variable (hOuter : st'.outerPlan.length = st.outerPlan.length)
include hOuter

theorem smaller_inner (hRank : st'.joinState.rank ≤ st.joinState.rank)
    (h : st'.innerPlan.length < st.innerPlan.length) : Smaller st' st := by
  rw [smaller_iff]
  omega

theorem smaller_turns (hRank : st'.joinState.rank = st.joinState.rank)
    (hInner : st'.innerPlan.length = st.innerPlan.length) (h : st'.turns < st.turns) :
    Smaller st' st := by
  rw [smaller_iff]
  omega

end Smaller

/-- A turn of the loop from `st`, with `todo` to be emitted. -/
def Leads (node : MergeJoin O I K R) (st : MergeJoinState O I K) (todo : Multiset R) :
    MJStep O I K R → Prop
  | .done => todo = 0
  | .assertFailed => False
  | .next st' rows => ∃ todo', Pending node st' todo' ∧ todo = ↑rows + todo' ∧ Smaller st' st

variable {st : MergeJoinState O I K} {todo : Multiset R} {o : O} {i : I}
  {st' : MergeJoinState O I K}

theorem Leads.silent {todo' : Multiset R} (hPending : Pending node st' todo') (hTodo : todo = todo')
    (hSmaller : Smaller st' st) : Leads node st todo (.next st' []) :=
  ⟨todo', hPending, by rw [hTodo, Multiset.coe_nil, zero_add], hSmaller⟩

/-! ## Null-extended rows -/

/-- The null-extended row of a tuple without a match is emitted before the turn goes on. -/
theorem leads_fill {side matched : Bool} {rows : List R} {filled other : MJStep O I K R}
    (hPending : Pending node st' (0 + todo)) (hTurns : matched = false → Smaller st' st)
    (hFilled : Leads node st todo filled) (hOther : Leads node st todo other) :
    Leads node st ((if matched then 0 else if side then (rows : Multiset R) else 0) + todo)
      (if side && !matched then
        match rows with
        | [] => filled
        | row :: rows => .next st' (row :: rows)
      else other) := by
  cases matched with
  | true => simpa using hOther
  | false =>
    cases side with
    | false => simpa using hOther
    | true =>
      cases rows with
      | nil => simpa using hFilled
      | cons row rows => exact ⟨0 + todo, hPending, by simp, hTurns rfl⟩

variable {advance : MergeJoinState O I K → MJStep O I K R}

theorem leads_fillOuter (hSlot : st.outerTupleSlot = some o)
    (hPending : Pending node { st with matchedOuter := true } (0 + todo))
    (hTurns : st.matchedOuter = false → Smaller { st with matchedOuter := true } st)
    (hAdvance : ∀ matched, Leads node st todo (advance { st with matchedOuter := matched })) :
    Leads node st (node.outerSlotFill st o + todo) (fillOuterThen node st advance) := by
  have hRows : mjFillOuter node { st with matchedOuter := true } = node.emit (some o) none := by
    rw [mjFillOuter, ← hSlot]
  unfold fillOuterThen outerSlotFill Join.outerFill
  dsimp only
  rw [hRows]
  exact leads_fill hPending hTurns (hAdvance true) (hAdvance st.matchedOuter)

theorem leads_fillInner (hSlot : st.innerTupleSlot = some i)
    (hPending : Pending node { st with matchedInner := true } (0 + todo))
    (hTurns : st.matchedInner = false → Smaller { st with matchedInner := true } st)
    (hAdvance : ∀ matched, Leads node st todo (advance { st with matchedInner := matched })) :
    Leads node st ((if st.matchedInner then 0 else node.join.innerFillRow i) + todo)
      (fillInnerThen node st advance) := by
  have hRows : mjFillInner node { st with matchedInner := true } = node.emit none (some i) := by
    rw [mjFillInner, ← hSlot]
  unfold fillInnerThen
  dsimp only
  rw [hRows]
  exact leads_fill hPending hTurns (hAdvance true) (hAdvance st.matchedInner)

theorem fillInnerThen_of_matched (h : node.jointype.fillInner → st.matchedInner)
    (advance : MergeJoinState O I K → MJStep O I K R) :
    fillInnerThen node st advance = advance st := by
  rw [fillInnerThen]
  cases hFill : node.jointype.fillInner with
  | false => simp
  | true => simp [h hFill]

theorem slot_innerFillRow {matched : Bool} (h : node.jointype.fillInner → matched = false) :
    (if matched then 0 else node.join.innerFillRow i) = node.join.innerFillRow i := by
  cases hFill : node.jointype.fillInner with
  | false => simp [Join.innerFillRow, hFill]
  | true => simp [h hFill]

theorem ite_markPos (node : MergeJoin O I K R) (st : MergeJoinState O I K) :
    (if node.extraMarks then st.markPos else st) =
      { st with innerMark := if node.extraMarks then st.innerPlan else st.innerMark } := by
  split_ifs <;> rfl

/-! ## The end of an input -/

theorem todo_nil_left (hFill : node.jointype.fillInner = false) (is : List I) :
    node.join.todo [] is = 0 := by
  rw [Join.todo, node.join.sum_innerFill_of_not_fill hFill]
  rfl

/-- The inner side has come to its end: what is ahead of it matches nothing and is not to
be null-extended. -/
theorem leads_inner_end {ahead : List I} (hAt : st'.joinState = .endInner)
    (hFlagO : st'.matchedOuter = false) (hSlot : st'.outerTupleSlot = some o)
    (hPlan : st'.outerPlan = st.outerPlan) (hNone : ∀ i ∈ ahead, ∀ x, node.on x i = false)
    (hFill : node.jointype.fillInner → ahead = []) (hRank : 0 < st.joinState.rank) :
    Leads node st (node.join.todo (o :: st.outerPlan) ahead)
      (if node.jointype.fillOuter then .next st' [] else .done) := by
  have hTodo : node.join.todo (o :: st.outerPlan) ahead = node.join.todo (o :: st.outerPlan) [] := by
    cases hInner : node.jointype.fillInner with
    | false => exact node.join.todo_no_inner (fun i hi x _ => hNone i hi x) hInner
    | true => rw [hFill hInner]
  rw [hTodo]
  split_ifs with hOuter
  · have hNext : Pending node st' (node.join.todo (o :: st.outerPlan) []) := by
      rw [Pending, hAt]
      refine ⟨o, hOuter, hSlot, ?_⟩
      rw [node.join.todo_cons_outer (by simp), hPlan, outerSlotFill, hFlagO]
      rfl
    refine Leads.silent hNext rfl (smaller_rank (by rw [hPlan]) ?_)
    rw [hAt]
    exact hRank
  · rw [node.join.todo_no_outer (by simp) (by simpa using hOuter)]
    rfl

/-! ## Finding the first tuples -/

theorem pending_endOuter_matched (hAt : st.joinState = .endOuter)
    (hFill : node.jointype.fillInner) (hMatched : st.matchedInner) :
    Pending node st (node.join.todo [] st.innerPlan) := by
  have hSlot : node.slotFill st = 0 := by
    rw [slotFill, hMatched]
    cases st.innerTupleSlot <;> rfl
  rw [Pending, hAt]
  exact ⟨hFill, by simp [hMatched], by rw [hSlot, zero_add]⟩

variable (h : node.Sound)
include h

section

variable (hPending : Pending node st todo)
include hPending

theorem leads_initializeOuter (hAt : st.joinState = .initializeOuter) :
    Leads node st todo (initializeOuter node st) := by
  rw [Pending, hAt] at hPending
  obtain ⟨hFlag, hFlagO, hOuter, hInner, rfl⟩ := hPending
  obtain ⟨joinState, mo, mi, oslot, islot, mslot, ld, rd, os, is, mark⟩ := st
  subst hAt hFlag hFlagO
  -- the two ways the outer side ends
  have hEnd : ∀ ld' os' (slot : Option O), os'.length ≤ os.length →
      node.join.todo os is = node.join.todo [] is →
      Leads node ⟨.initializeOuter, false, false, oslot, islot, mslot, ld, rd, os, is, mark⟩
        (node.join.todo os is)
        (if node.jointype.fillInner then
          .next ⟨.endOuter, false, true, slot, islot, mslot, ld', rd, os', is, mark⟩ []
        else .done) := by
    intro ld' os' slot hLength hTodo
    split_ifs with hFill
    · exact Leads.silent (pending_endOuter_matched rfl hFill rfl) hTodo
        (smaller_rank hLength (by simp [MJState.rank]))
    · exact hTodo.trans (todo_nil_left (by simpa using hFill) is)
  cases os with
  | nil => exact hEnd ld [] none (le_refl 0) rfl
  | cons o os =>
    have hSorted := (pairwise_cons.mp hOuter).2
    have hFound := found_outer hOuter
    simp only [initializeOuter, fetchOuter, mjEvalOuterValues, head?_cons]
    generalize mjEvalLoop _ 0 .matchable _ _ = result at hFound ⊢
    cases result with
    | matchable =>
      exact Leads.silent ⟨o, rfl, rfl, ⟨rfl, rfl, hFound, hOuter⟩, hInner, rfl⟩ rfl
        (smaller_outer (by simp))
    | nonmatchable =>
      dsimp only
      rw [node.join.todo_cons_outer (fun i _ => h.lawful.on_of_outer_null hFound i), Join.outerFill]
      split_ifs with hFill
      · exact ⟨_, ⟨rfl, rfl, hSorted, hInner, rfl⟩, rfl, smaller_outer (by simp)⟩
      · exact Leads.silent ⟨rfl, rfl, hSorted, hInner, rfl⟩ (zero_add _) (smaller_outer (by simp))
    | endOfJoin =>
      exact hEnd _ os (some o) (by simp) (node.join.todo_no_outer
        (fun x hx i _ => h.lawful.on_of_outer_null (hFound.2 x hx) i) hFound.1)

theorem leads_initializeInner (hAt : st.joinState = .initializeInner) :
    Leads node st todo (initializeInner node st) := by
  rw [Pending, hAt] at hPending
  obtain ⟨o, hFlag, hFlagO, ⟨hSlotO, hLoadedO, hNullsO, hSortedO⟩, hInner, rfl⟩ := hPending
  obtain ⟨joinState, mo, mi, oslot, islot, mslot, ld, rd, os, is, mark⟩ := st
  subst hAt hFlag hFlagO hSlotO hLoadedO
  cases is with
  | nil =>
    exact leads_inner_end rfl rfl rfl rfl (by simp) (fun _ => rfl) (by simp [MJState.rank])
  | cons i is =>
    have hSorted := (pairwise_cons.mp hInner).2
    have hFound := found_inner hInner
    simp only [initializeInner, fetchInner, mjEvalInnerValues, head?_cons,
      tail_cons, ite_markPos]
    generalize mjEvalLoop _ 0 .matchable _ _ = result at hFound ⊢
    cases result with
    | matchable =>
      exact Leads.silent ⟨o, i, fun _ => rfl, rfl, ⟨rfl, rfl, hNullsO, hSortedO⟩,
        ⟨rfl, rfl, hFound, hInner⟩, rfl⟩ rfl (smaller_rank le_rfl (by simp [MJState.rank]))
    | nonmatchable =>
      -- a mark taken here is not used
      generalize ite (node.extraMarks) is mark = mark'
      dsimp only
      rw [node.join.todo_cons_inner (fun x _ => h.lawful.on_of_inner_null hFound x),
        Join.innerFillRow]
      have hNext : Pending node ⟨.initializeInner, false, false, some o, some i, mslot,
          node.outerValues o, node.innerValues i, os, is, mark'⟩ _ :=
        ⟨o, rfl, rfl, ⟨rfl, rfl, hNullsO, hSortedO⟩, hSorted, rfl⟩
      have hLength : is.length < (i :: is).length := lt_succ_self _
      split_ifs with hFill
      · exact ⟨_, hNext, rfl, smaller_inner rfl le_rfl hLength⟩
      · exact Leads.silent hNext (zero_add _) (smaller_inner rfl le_rfl hLength)
    | endOfJoin =>
      exact leads_inner_end rfl rfl rfl rfl
        (fun j hj x => h.lawful.on_of_inner_null (hFound.2 j hj) x)
        (by simp [hFound.1]) (by simp [MJState.rank])

/-! ## Looking for equal keys -/

theorem leads_skipTest (hAt : st.joinState = .skipTest) :
    Leads node st todo (skipTest node st) := by
  rw [Pending, hAt] at hPending
  obtain ⟨o, i, hFlag, hFlagO, hOuter, hInner, rfl⟩ := hPending
  have hCompare := mjCompare_eq hOuter.loaded hInner.loaded hOuter.noNulls hInner.noNulls
  rw [skipTest]
  by_cases hLt : mjCompare node st < 0
  · have hBefore : node.order (node.outerKey o) (node.innerKey i) < 0 := by
      rw [hCompare] at hLt
      split_ifs at hLt with hConst
      · omega
      · exact hLt
    rw [if_neg (by omega), if_pos hLt,
      node.join.todo_cons_outer (h.lawful.on_of_before hBefore hInner.sorted)]
    refine Leads.silent ⟨o, i, hFlag, hOuter.slot, (pairwise_cons.mp hOuter.sorted).2,
      { hInner with }, rfl⟩ ?_ (smaller_turns rfl ?_ rfl ?_)
    · rw [outerSlotFill, hFlagO]
      rfl
    · rw [hAt]
      rfl
    · simp [turns, hAt, hFlagO]
  by_cases hEq : mjCompare node st = 0
  · obtain ⟨hKeys, hReal⟩ : node.order (node.outerKey o) (node.innerKey i) = 0 ∧
        node.constFalseJoin = false := by
      rw [hCompare] at hEq
      split_ifs at hEq with hConst
      · omega
      · exact ⟨hEq, by simpa [hEq] using hConst⟩
    rw [if_pos hEq, todo_group hKeys h hReal hOuter.noNulls hInner.noNulls]
    refine Leads.silent ⟨o, i, i, st.innerPlan, [], { hOuter with },
      ⟨hInner.slot, rfl, hInner.noNulls, hInner.sorted, hReal⟩, hKeys, hInner.slot, rfl,
      forall_mem_singleton.mpr (sameKey_self h.lawful i), rfl⟩ ?_ (smaller_rank le_rfl ?_)
    · dsimp only [markPos]
      rw [hFlagO]
    · rw [hAt]
      exact lt_succ_self 2
  · -- the inner tuple is before the outer one, or the join quals are constantly false
    have hNone : ∀ x ∈ o :: st.outerPlan, node.on x i = false := by
      by_cases hConst : node.constFalseJoin
      · intro x _
        rw [MergeJoin.on, MergeJoin.execQual_of_constFalse hConst, Bool.and_false]
      · refine h.lawful.on_of_after ?_ hOuter.sorted
        rw [hCompare, if_neg (by simp [hConst])] at hEq hLt
        omega
    rw [if_neg hEq, if_neg hLt, node.join.todo_cons_inner hNone]
    refine Leads.silent ⟨o, i, hFlagO, { hOuter with }, hInner.slot,
      (pairwise_cons.mp hInner.sorted).2, rfl⟩ ?_ (smaller_turns rfl ?_ rfl ?_)
    · rw [slot_innerFillRow hFlag]
    · rw [hAt]
      rfl
    · simp only [turns, hAt]
      split_ifs <;> omega

end

/-- The state `s` with an outer tuple just fetched. -/
abbrev MergeJoinState.atOuter (st : MergeJoinState O I K) (s : MJState) (slot : Option O)
    (ld : List (Option K)) (os : List O) : MergeJoinState O I K :=
  { st with
    joinState := s
    matchedOuter := false
    outerTupleSlot := slot
    ldatum := ld
    outerPlan := os }

/-- The advance of the outer plan, for what is to be emitted as a function of the outer
tuples still to come. -/
theorem leads_outerAdvance (st : MergeJoinState O I K) (matchable nonmatchable : MJState)
    (todo : List O → Multiset R) (hSorted : node.SortedOuter st.outerPlan)
    (hRank : 0 < st.joinState.rank) (hCons : ∀ o os, (∀ i, node.on o i = false) →
      todo (o :: os) = node.join.outerFill o + todo os)
    (hMatch : ∀ o os, st.outerPlan = o :: os → NoNulls (node.outerValues o) →
      Pending node (st.atOuter matchable (some o) (node.outerValues o) os) (todo (o :: os)))
    (hNon : ∀ o os, st.outerPlan = o :: os →
      Pending node (st.atOuter nonmatchable (some o) (node.outerValues o) os)
        (node.join.outerFill o + todo os))
    (hDone : (node.jointype.fillInner && st.innerTupleSlot.isSome) = false → todo [] = 0)
    (hEnd : node.jointype.fillInner → st.innerTupleSlot.isSome → ∀ slot ld os,
      Pending node (st.atOuter .endOuter slot ld os) (todo [])) :
    Leads node st (todo st.outerPlan) (outerAdvance node matchable nonmatchable st) := by
  obtain ⟨joinState, mo, mi, oslot, islot, mslot, ld, rd, os, is, mark⟩ := st
  have hEnds : ∀ slot ld' os', os'.length ≤ os.length → todo os = todo [] →
      Leads node ⟨joinState, mo, mi, oslot, islot, mslot, ld, rd, os, is, mark⟩ (todo os)
        (if (node.jointype.fillInner && islot.isSome) then
          .next ⟨.endOuter, false, mi, slot, islot, mslot, ld', rd, os', is, mark⟩ []
        else .done) := by
    intro slot ld' os' hLength hTodo
    split_ifs with hFill
    · have hBoth := Bool.and_eq_true_iff.mp hFill
      exact Leads.silent (hEnd hBoth.1 hBoth.2 slot ld' os') hTodo (smaller_rank hLength hRank)
    · exact hTodo.trans (hDone (by simpa using hFill))
  cases os with
  | nil => exact hEnds none ld [] (le_refl 0) rfl
  | cons o os =>
    have hFound := found_outer hSorted
    simp only [outerAdvance, fetchOuter, mjEvalOuterValues, head?_cons]
    generalize mjEvalLoop _ 0 .matchable _ _ = result at hFound ⊢
    cases result with
    | matchable =>
      exact Leads.silent (hMatch o os rfl hFound) rfl (smaller_outer (by simp))
    | nonmatchable =>
      exact Leads.silent (hNon o os rfl)
        (hCons o os fun i => h.lawful.on_of_outer_null hFound i) (smaller_outer (by simp))
    | endOfJoin =>
      obtain ⟨hFill, hNone⟩ := hFound
      have hRest : ∀ l : List O, (∀ x ∈ l, ¬ NoNulls (node.outerValues x)) →
          todo l = todo [] := by
        intro l hl
        induction l with
        | nil => rfl
        | cons x l ih =>
          rw [hCons x l fun i => h.lawful.on_of_outer_null (hl x mem_cons_self) i,
            ih fun y hy => hl y (mem_cons_of_mem x hy), Join.outerFill,
            hFill]
          exact zero_add _
      exact hEnds _ _ os (by simp) (hRest _ hNone)

variable (hPending : Pending node st todo)
include hPending

theorem leads_skipOuter (hAt : st.joinState = .skipOuterAdvance) :
    Leads node st todo
      (fillOuterThen node st (outerAdvance node .skipTest .skipOuterAdvance)) := by
  rw [Pending, hAt] at hPending
  obtain ⟨o, i, hFlag, hSlot, hOuter, hInner, rfl⟩ := hPending
  refine leads_fillOuter hSlot ?_ ?_ fun _ => ?_
  · rw [Pending, hAt]
    exact ⟨o, i, hFlag, hSlot, hOuter, { hInner with }, rfl⟩
  · intro hMatched
    exact smaller_turns rfl rfl rfl (by simp [turns, hAt, hMatched])
  · refine leads_outerAdvance h st _ _ (fun os => node.join.todo os (i :: st.innerPlan)) hOuter
      (by simp [hAt, MJState.rank]) (fun x os hx => node.join.todo_cons_outer (fun j _ => hx j) os)
      ?_ ?_ ?_ ?_
    · intro x os hPlan hNulls
      exact ⟨x, i, hFlag, rfl, ⟨rfl, rfl, hNulls, hPlan ▸ hOuter⟩, { hInner with }, rfl⟩
    · intro x os hPlan
      exact ⟨x, i, hFlag, rfl, (pairwise_cons.mp (hPlan ▸ hOuter)).2, { hInner with }, rfl⟩
    · intro hNot
      exact todo_nil_left (by simpa [hInner.slot] using hNot) _
    · intro hFill _ slot ld os
      refine ⟨hFill, by simp [hInner.slot], ?_⟩
      simp [slotFill, hInner.slot, hFlag hFill, node.join.todo_cons_inner]

theorem leads_skipInner (hAt : st.joinState = .skipInnerAdvance) :
    Leads node st todo (fillInnerThen node st (skipInnerAdvance node)) := by
  rw [Pending, hAt] at hPending
  obtain ⟨o, i, hFlagO, ⟨hSlotO, hLoadedO, hNullsO, hSortedO⟩, hSlot, hInner, rfl⟩ := hPending
  refine leads_fillInner hSlot ?_ ?_ fun matched => ?_
  · rw [Pending, hAt]
    exact ⟨o, i, hFlagO, ⟨hSlotO, hLoadedO, hNullsO, hSortedO⟩, hSlot, hInner, rfl⟩
  · intro hMatched
    exact smaller_turns rfl rfl rfl (by simp [turns, hAt, hMatched])
  obtain ⟨joinState, mo, mi, oslot, islot, mslot, ld, rd, os, is, mark⟩ := st
  subst hAt hFlagO hSlotO hLoadedO
  -- a mark taken here is not used
  simp only [skipInnerAdvance, ite_markPos, fetchInner]
  cases is with
  | nil =>
    simp only [head?_nil, mjEvalInnerValues, Option.isSome_some, Bool.and_true]
    exact leads_inner_end rfl rfl rfl rfl (by simp) (fun _ => rfl) (by simp [MJState.rank])
  | cons j is =>
    have hFound := found_inner hInner
    simp only [head?_cons, mjEvalInnerValues]
    generalize mjEvalLoop _ 0 .matchable _ _ = result at hFound ⊢
    cases result with
    | matchable =>
      exact Leads.silent ⟨o, j, fun _ => rfl, rfl, ⟨rfl, rfl, hNullsO, hSortedO⟩,
        ⟨rfl, rfl, hFound, hInner⟩, rfl⟩ rfl (smaller_inner rfl le_rfl (by simp))
    | nonmatchable =>
      exact Leads.silent ⟨o, j, rfl, ⟨rfl, rfl, hNullsO, hSortedO⟩, rfl,
        (pairwise_cons.mp hInner).2, rfl⟩
        (node.join.todo_cons_inner (fun x _ => h.lawful.on_of_inner_null hFound x) is)
        (smaller_inner rfl le_rfl (by simp))
    | endOfJoin =>
      simp only [Option.isSome_some, Bool.and_true]
      exact leads_inner_end rfl rfl rfl rfl
        (fun x hx y => h.lawful.on_of_inner_null (hFound.2 x hx) y)
        (by simp [hFound.1]) (by simp [MJState.rank])

end PgTuning.Executor
