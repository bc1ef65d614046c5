import PgTuning.Executor.MergeJoinSteps

/-!
# The turns of a merge join within a group and at the end of an input

While the keys are equal the machine joins the current outer tuple with every inner tuple of
the group, and goes back to the mark for the next outer tuple. At the end of one input it
null-extends what is left of the other.
-/

namespace PgTuning.Executor

open Lib.ThreeWay List Option MergeJoinState MergeJoin Nat Int

variable {O I K R : Type} {node : MergeJoin O I K R} {st : MergeJoinState O I K}

/-! ## Within a group of equal keys -/

variable {i mk : I} {o : O} {ms passed ahead : List I}

/-- A semijoin emits an outer row at its first match. -/
theorem outerRows_of_semi (hType : node.jointype = .semi) (hOn : node.on o i)
    (is : List I) (matched : Bool) :
    node.join.outerRows o (i :: is) matched = ↑(node.emit (some o) (some i)) := by
  obtain ⟨hQual, hProject⟩ := node.outer_only (Or.inl hType) (some o) (some i)
  rw [Join.outerRows, any_cons, emit, hQual, hProject]
  simp [Join.pairRows, hType, hOn, emit]

theorem after_mark (h : node.LawfulClauses) {os : List O} (hSorted : node.SortedOuter (o :: os))
    (hEq : node.order (node.outerKey o) (node.innerKey mk) = 0) :
    ∀ x ∈ os, 0 ≤ node.order (node.outerKey x) (node.innerKey mk) := by
  intro x hx
  have hLe := (pairwise_cons.mp hSorted).1 x hx
  have hMark : node.order (node.innerKey mk) (node.outerKey o) ≤ 0 :=
    le_of_eq (h.order.eq_zero_iff.mp hEq)
  exact h.order.nonneg_iff.mpr (h.order.trans hMark hLe)

section

variable (h : node.Sound) {todo : Multiset R} (hPending : Pending node st todo)
include h hPending

theorem leads_joinTuples (hAt : st.joinState = .joinTuples) :
    ∃ o i, st.outerTupleSlot = some o ∧ st.innerTupleSlot = some i ∧
      Leads node st todo (joinTuples node st o i) := by
  rw [Pending, hAt] at hPending
  obtain ⟨o, i, mk, ms, passed, hOuter, hMark, hEq, hSlot, hSplit, hSame, rfl⟩ := hPending
  refine ⟨o, i, hOuter.slot, hSlot, ?_⟩
  have hKey : node.SameKey mk i := hSame i (by simp)
  have hNullsI : NoNulls (node.innerKey i).1 := noNulls_of_order_eq hMark.noNulls hKey
  have hOn : node.on o i = execQual node.joinqual o i := by
    rw [on, (h.lawful.mergeEq_iff o i).mpr ⟨hOuter.noNulls, hNullsI,
      (order_eq_iff_sameKey hEq h.lawful i).mpr hKey⟩, Bool.true_and]
  have hSplit' : mk :: ms = (passed ++ [i]) ++ st.innerPlan := by
    rw [hSplit, append_assoc, singleton_append]
  -- a match ends the scan of the group only in a semi or anti join
  have hNextOuter : node.jointype.fillInner = false →
      Pending node { st with
        matchedOuter := true
        matchedInner := true
        joinState := .nextOuter } (0 + node.groupTodo mk ms st.outerPlan) := by
    intro hFill
    refine ⟨o, mk, ms, passed, i :: st.innerPlan, hOuter.slot, (pairwise_cons.mp hOuter.sorted).2,
      after_mark h.lawful hOuter.sorted hEq, { hMark with },
      ⟨hSplit, fun x hx => hSame x (mem_append_left _ hx), ?_, ?_⟩, rfl⟩
    · intro j hj
      rw [show i = j from some.inj (hSlot.symm.trans hj)]
      exact ⟨rfl, by simp [hFill]⟩
    · intro hNone
      exact absurd (hSlot.symm.trans hNone) (some_ne_none i)
  have hRank : (MJState.nextOuter).rank < st.joinState.rank := by
    rw [hAt]
    exact lt_succ_self 1
  rw [joinTuples]
  split_ifs with hQual
  · rw [hQual] at hOn
    have hSmaller : Smaller { st with
        matchedInner := true
        joinState := .nextInner } st :=
      smaller_turns rfl (by rw [hAt]; rfl) rfl (by simp [turns, hAt])
    split
    next hType =>
      refine Leads.silent (hNextOuter (by rw [hType]; rfl)) ?_ (smaller_rank le_rfl hRank)
      simp [Join.outerRows, hType, hOn, Join.pairRows]
    next hType =>
      refine ⟨_, hNextOuter (by rw [hType]; rfl), ?_, smaller_rank le_rfl hRank⟩
      rw [outerRows_of_semi hType hOn, zero_add]
    next hAnti hSemi =>
      rw [node.join.outerRows_cons_of_on hOn hSemi hAnti, add_assoc]
      exact ⟨_, ⟨o, mk, ms, passed ++ [i], { hOuter with }, { hMark with }, hEq, fun _ => rfl,
        hSplit', hSame, rfl⟩, rfl, hSmaller⟩
  · rw [node.join.outerRows_cons_of_not (hOn.trans (by simpa using hQual))]
    refine Leads.silent ⟨o, mk, ms, passed ++ [i], { hOuter with }, { hMark with }, hEq, ?_,
      hSplit', hSame, rfl⟩ rfl (smaller_turns rfl (by rw [hAt]; rfl) rfl ?_)
    · -- the join quals of a right or full join are true here
      intro hFill
      exact absurd (h.constant.execQual hFill hMark.real o i) hQual
    · simp only [turns, hAt]
      split_ifs <;> omega

theorem leads_nextInner (hAt : st.joinState = .nextInner) :
    Leads node st todo (fillInnerThen node st (nextInnerAdvance node)) := by
  rw [Pending, hAt] at hPending
  obtain ⟨o, mk, ms, passed, hOuter, hMark, hEq, hFlag, hSplit, hSame, rfl⟩ := hPending
  rw [fillInnerThen_of_matched hFlag]
  -- the group is left: the outer side is advanced
  have hLeave : ∀ (slot : Option I) (rd : List (Option K)) (is : List I),
      (∀ i ∈ st.innerPlan, node.on o i = false) →
      let st' := { st with
        joinState := .nextOuter
        matchedInner := false
        innerTupleSlot := slot
        rdatum := rd
        innerPlan := is }
      Position node st' mk ms passed st.innerPlan →
      Leads node st (node.join.outerRows o st.innerPlan st.matchedOuter +
        node.groupTodo mk ms st.outerPlan) (.next st' []) := by
    intro slot rd is hNone st' hPos
    rw [node.join.outerRows_unmatched hNone]
    exact Leads.silent ⟨o, mk, ms, passed, st.innerPlan, hOuter.slot,
      (pairwise_cons.mp hOuter.sorted).2, after_mark h.lawful hOuter.sorted hEq, { hMark with },
      hPos, rfl⟩ rfl (smaller_rank le_rfl (by simp [st', hAt, MJState.rank]))
  cases hPlan : st.innerPlan with
  | nil =>
    rw [hPlan] at hLeave hSplit
    unfold nextInnerAdvance fetchInner mjEvalInnerValues
    rw [hPlan]
    exact hLeave none st.rdatum [] (by simp)
      ⟨hSplit, hSame, by simp, fun _ => ⟨by simp, fun _ => rfl⟩⟩
  | cons i is =>
    rw [hPlan] at hLeave hSplit
    have hAhead : i ∈ mk :: ms := by
      rw [hSplit]
      exact mem_append_right _ mem_cons_self
    have hSuffix : node.SortedInner (i :: is) := by
      have hAll : node.SortedInner (passed ++ i :: is) := hSplit ▸ hMark.sorted
      exact (pairwise_append.mp hAll).2.1
    have hNotAfter : node.order (node.outerKey o) (node.innerKey i) ≤ 0 :=
      h.lawful.order.trans (le_of_eq hEq) (head_le h.lawful hMark.sorted hAhead)
    have hFound := found_inner hSuffix
    -- an inner tuple behind the group stays the current one
    have hBehind := fun hLt : node.order (node.outerKey o) (node.innerKey i) < 0 => by
      refine hLeave (some i) (node.innerValues i) is (h.lawful.on_of_before hLt hSuffix)
        ⟨hSplit, hSame, ?_, by simp⟩
      intro j hj
      rw [← some.inj hj]
      refine ⟨rfl, fun _ => ⟨fun hKey => ?_, rfl⟩⟩
      have hZero := (order_eq_iff_sameKey hEq h.lawful i).mpr hKey
      omega
    simp only [nextInnerAdvance, fetchInner, hPlan, mjEvalInnerValues, head?_cons, tail_cons]
    generalize mjEvalLoop _ 0 .matchable _ _ = result at hFound ⊢
    cases result with
    | matchable =>
      have hNullsI : NoNulls (node.innerValues i) := hFound
      have hCompare : mjCompare node { st with
          innerTupleSlot := some i
          innerPlan := is
          matchedInner := false
          rdatum := node.innerValues i } = _ :=
        mjCompare_eq hOuter.loaded rfl hOuter.noNulls hNullsI
      rw [hMark.real, if_neg (by simp)] at hCompare
      split_ifs with hZero hLt
      · refine Leads.silent ⟨o, i, mk, ms, passed, { hOuter with }, { hMark with }, hEq, rfl,
          hSplit, ?_, rfl⟩ rfl (smaller_inner rfl (by rw [hAt]; exact le_rfl) (by simp [hPlan]))
        refine forall_mem_append.mpr ⟨hSame, forall_mem_singleton.mpr ?_⟩
        exact (order_eq_iff_sameKey hEq h.lawful i).mp (hCompare ▸ hZero)
      · exact hBehind (hCompare ▸ hLt)
      · rw [hCompare] at hZero hLt
        omega
    | nonmatchable =>
      refine hBehind ?_
      have hNe : node.order (node.outerKey o) (node.innerKey i) ≠ 0 := fun hZero =>
        hFound (noNulls_of_order_eq (a := node.outerKey o) hOuter.noNulls hZero)
      omega
    | endOfJoin =>
      obtain ⟨hFill, hNone⟩ := hFound
      exact hLeave none _ is (fun j hj => h.lawful.on_of_inner_null (hNone j hj) o)
        ⟨hSplit, hSame, by simp, fun _ => ⟨hNone, by simp [hFill]⟩⟩

theorem leads_nextOuter (hAt : st.joinState = .nextOuter) :
    Leads node st todo (fillOuterThen node st (outerAdvance node .testOuter .nextOuter)) := by
  rw [Pending, hAt] at hPending
  obtain ⟨o, mk, ms, passed, ahead, hSlot, hOuter, hAfter, hMark, hPos, rfl⟩ := hPending
  have hFills := hPos.sum_innerFill h.lawful hMark.sorted []
  refine leads_fillOuter hSlot ?_ ?_ fun _ => ?_
  · rw [Pending, hAt]
    exact ⟨o, mk, ms, passed, ahead, hSlot, hOuter, hAfter, { hMark with }, { hPos with }, rfl⟩
  · intro hMatched
    exact smaller_turns rfl rfl rfl (by simp [turns, hAt, hMatched])
  have hNil : node.groupTodo mk ms [] = (ahead.map fun i => node.join.innerFill i []).sum := by
    rw [groupTodo, hFills]
    exact zero_add _
  refine leads_outerAdvance h st _ _ (fun os => node.groupTodo mk ms os) hOuter
    (by simp [hAt, MJState.rank]) (fun x os hx => groupTodo_cons_unmatched hx mk ms os) ?_ ?_ ?_ ?_
  · intro x os hPlan hNulls
    exact ⟨x, mk, ms, passed, ahead, rfl, ⟨rfl, rfl, hNulls, hPlan ▸ hOuter⟩, hPlan ▸ hAfter,
      { hMark with }, { hPos with }, rfl⟩
  · intro x os hPlan
    rw [hPlan] at hOuter hAfter
    exact ⟨x, mk, ms, passed, ahead, rfl, (pairwise_cons.mp hOuter).2,
      fun y hy => hAfter y (mem_cons_of_mem x hy), { hMark with }, { hPos with }, rfl⟩
  · intro hNot
    rw [hNil]
    cases hFill : node.jointype.fillInner with
    | false => exact node.join.sum_innerFill_of_not_fill hFill ahead []
    | true =>
      rw [hFill, Bool.true_and, isSome_eq_false_iff, isNone_iff_eq_none] at hNot
      rw [(hPos.none hNot).2 hFill]
      rfl
  · intro hFill hSome slot ld os
    obtain ⟨i, hSlotI⟩ := isSome_iff_exists.mp hSome
    obtain ⟨hAhead, hBehind⟩ := hPos.current i hSlotI
    have hTodo : node.groupTodo mk ms [] =
        node.join.innerFillRow i + node.join.todo [] st.innerPlan := by
      rw [hNil, hAhead, ← node.join.todo_cons_inner (by simp) st.innerPlan]
      exact (zero_add _).symm
    refine ⟨hFill, by simp [hSlotI], ?_⟩
    simp [hTodo, slotFill, hSlotI, (hBehind hFill).2]

end

/-- `EXEC_MJ_TESTOUTER`, once the outer tuple is found to be behind the group. -/
def testOuterBehind (node : MergeJoin O I K R) (st : MergeJoinState O I K) : MJStep O I K R :=
  let (result, st) := mjEvalInnerValues node st st.innerTupleSlot
  match result with
  | .matchable => .next { st with joinState := .skipTest } []
  | .nonmatchable => .next { st with joinState := .skipInnerAdvance } []
  | .endOfJoin =>
    if node.jointype.fillOuter then .next { st with joinState := .endInner } [] else .done

theorem leads_testOuterBehind (h : node.Sound) (hAt : st.joinState = .testOuter)
    (hFlagO : st.matchedOuter = false) (hOuter : OuterAt node st o)
    (hAfter : ∀ x ∈ o :: st.outerPlan, 0 < node.order (node.outerKey x) (node.innerKey mk))
    (hSorted : node.SortedInner (mk :: ms)) (hPos : Position node st mk ms passed ahead)
    (rd' : List (Option K)) :
    Leads node st (node.groupTodo mk ms (o :: st.outerPlan))
      (testOuterBehind node { st with rdatum := rd' }) := by
  rw [hPos.groupTodo_eq h.lawful hSorted hAfter]
  have hRank : 0 < st.joinState.rank := by
    rw [hAt]
    exact succ_pos 3
  have hSmaller : ∀ s : MJState, s.rank = 3 → s.rank < st.joinState.rank := by
    intro s hs
    rw [hs, hAt]
    exact lt_succ_self 3
  cases hSlot : st.innerTupleSlot with
  | none =>
    obtain ⟨hNulls, hFill⟩ := hPos.none hSlot
    exact leads_inner_end rfl hFlagO hOuter.slot rfl
      (fun i hi x => h.lawful.on_of_inner_null (hNulls i hi) x) hFill hRank
  | some i =>
    obtain ⟨hAhead, hBehind⟩ := hPos.current i hSlot
    have hSuffix : node.SortedInner (i :: st.innerPlan) := by
      have hAll : node.SortedInner (passed ++ i :: st.innerPlan) := hAhead ▸ hPos.split ▸ hSorted
      exact (pairwise_append.mp hAll).2.1
    have hFound := found_inner hSuffix
    rw [hAhead]
    simp only [testOuterBehind, mjEvalInnerValues]
    generalize mjEvalLoop _ 0 .matchable _ _ = result at hFound ⊢
    cases result with
    | matchable =>
      exact Leads.silent ⟨o, i, fun hFill => (hBehind hFill).2, hFlagO, { hOuter with },
        ⟨rfl, rfl, hFound, hSuffix⟩, rfl⟩ rfl (smaller_rank le_rfl (hSmaller .skipTest rfl))
    | nonmatchable =>
      rw [node.join.todo_cons_inner (fun x _ => h.lawful.on_of_inner_null hFound x)]
      refine Leads.silent ⟨o, i, hFlagO, { hOuter with }, rfl, (pairwise_cons.mp hSuffix).2, rfl⟩ ?_
        (smaller_rank le_rfl (hSmaller .skipInnerAdvance rfl))
      rw [slot_innerFillRow fun hFill => (hBehind hFill).2]
    | endOfJoin =>
      exact leads_inner_end rfl hFlagO hOuter.slot rfl
        (fun j hj x => h.lawful.on_of_inner_null (hFound.2 j hj) x) (by simp [hFound.1]) hRank

variable {todo : Multiset R} (hPending : Pending node st todo)
include hPending

theorem leads_testOuter (h : node.Sound) (hAt : st.joinState = .testOuter) :
    Leads node st todo (testOuter node st) := by
  rw [Pending, hAt] at hPending
  obtain ⟨o, mk, ms, passed, ahead, hFlagO, hOuter, hAfter, hMark, hPos, rfl⟩ := hPending
  have hCompare : mjCompare node { st with rdatum := node.innerValues mk } = _ :=
    mjCompare_eq hOuter.loaded rfl hOuter.noNulls hMark.noNulls
  rw [hMark.real, if_neg (by simp)] at hCompare
  have hStep : testOuter node st =
      if mjCompare node { st with rdatum := node.innerValues mk } = 0 then
        .next { st with
          rdatum := node.innerValues mk
          innerPlan := st.innerMark
          innerTupleSlot := st.markedTupleSlot
          joinState := .joinTuples } []
      else if mjCompare node { st with rdatum := node.innerValues mk } > 0 then
        testOuterBehind node { st with rdatum := node.innerValues mk }
      else .assertFailed := by
    have hSlotM := hMark.slot
    obtain ⟨joinState, mo, mi, oslot, islot, mslot, ld, rd, os, is, mark⟩ := st
    subst hSlotM
    rfl
  rw [hStep]
  have hNotBefore := hAfter o mem_cons_self
  split_ifs with hZero hGt
  · -- another outer tuple for the group: back to the mark
    rw [hCompare] at hZero
    rw [groupTodo_cons _ _ fun i => on_of_not_sameKey hZero h.lawful]
    refine Leads.silent ⟨o, mk, mk, ms, [], { hOuter with }, { hMark with }, hZero, hMark.slot,
      by rw [nil_append, hMark.mark], forall_mem_singleton.mpr (sameKey_self h.lawful mk), rfl⟩ ?_
      (smaller_rank le_rfl ?_)
    · rw [hFlagO, hMark.mark]
    · rw [hAt]
      exact Nat.lt_of_lt_of_eq (Nat.lt_add_of_pos_right Nat.two_pos) rfl
  · -- the tuples behind an outer tuple that is past the group are past it too
    rw [hCompare] at hGt
    refine leads_testOuterBehind h hAt hFlagO hOuter ?_ hMark.sorted hPos _
    intro x hx
    rcases mem_cons.mp hx with rfl | hTail
    · exact hGt
    · have hLe := (pairwise_cons.mp hOuter.sorted).1 x hTail
      by_contra hNot
      have hBack := h.lawful.order.trans hLe (not_lt.mp hNot)
      omega
  · rw [hCompare] at hZero hGt
    omega

/-! ## The ends of the inputs -/

theorem leads_endOuter (hAt : st.joinState = .endOuter) : node.jointype.fillInner ∧
    Leads node st todo (fillInnerThen node st (endOuterAdvance node)) := by
  rw [Pending, hAt] at hPending
  obtain ⟨hFill, hSlot, rfl⟩ := hPending
  refine ⟨hFill, ?_⟩
  have hAdvance : ∀ matched, Leads node st (node.join.todo [] st.innerPlan)
      (endOuterAdvance node { st with matchedInner := matched }) := by
    intro matched
    obtain ⟨joinState, mo, mi, oslot, islot, mslot, ld, rd, os, is, mark⟩ := st
    subst hAt
    rw [endOuterAdvance, ite_markPos]
    cases is with
    | nil => rfl
    | cons i is =>
      rw [node.join.todo_cons_inner (by simp)]
      exact Leads.silent ⟨hFill, by simp [fetchInner], rfl⟩ rfl
        (smaller_inner rfl le_rfl (by simp [fetchInner]))
  cases hSlotI : st.innerTupleSlot with
  | none =>
    have hMatched : st.matchedInner := by
      cases hFlag : st.matchedInner with
      | false => exact absurd hSlotI (hSlot hFlag)
      | true => rfl
    rw [fillInnerThen_of_matched fun _ => hMatched, slotFill, hSlotI, zero_add]
    exact hAdvance st.matchedInner
  | some i =>
    rw [slotFill, hSlotI]
    refine leads_fillInner hSlotI ?_ ?_ hAdvance
    · rw [Pending, hAt]
      exact ⟨hFill, by simp, by simp [slotFill, hSlotI]⟩
    · intro hMatched
      exact smaller_turns rfl rfl rfl (by simp [turns, hAt, hMatched])

theorem leads_endInner (hAt : st.joinState = .endInner) : node.jointype.fillOuter ∧
    Leads node st todo (fillOuterThen node st endInnerAdvance) := by
  rw [Pending, hAt] at hPending
  obtain ⟨o, hFill, hSlot, rfl⟩ := hPending
  refine ⟨hFill, leads_fillOuter hSlot ?_ ?_ fun matched => ?_⟩
  · rw [Pending, hAt]
    exact ⟨o, hFill, hSlot, rfl⟩
  · intro hMatched
    exact smaller_turns rfl rfl rfl (by simp [turns, hAt, hMatched])
  · obtain ⟨joinState, mo, mi, oslot, islot, mslot, ld, rd, os, is, mark⟩ := st
    subst hAt
    cases os with
    | nil => rfl
    | cons x os =>
      rw [node.join.todo_cons_outer (by simp)]
      exact Leads.silent ⟨x, hFill, rfl, rfl⟩ rfl (smaller_outer (by simp [fetchOuter]))

end PgTuning.Executor
