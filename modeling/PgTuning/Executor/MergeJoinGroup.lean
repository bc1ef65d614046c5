import PgTuning.Executor.MergeJoinPending

/-!
# Groups of equal keys

How the rows that `groupTodo` stands for come apart when the machine enters a group, takes
the next outer tuple into it, passes an outer tuple that matches nothing, or leaves it.
-/

namespace PgTuning.Executor

open Lib.ThreeWay List Int

variable {O I K R : Type} {node : MergeJoin O I K R} {o : O} {mk : I} {ms : List I} {os : List O}

/-- What a merge join rests on: lawful comparison functions, and constant join quals where
the initialisation checks for them. -/
structure MergeJoin.Sound (node : MergeJoin O I K R) : Prop where
  lawful : node.LawfulClauses
  constant : node.ConstantQuals

theorem sameKey_self (h : node.LawfulClauses) (i : I) : node.SameKey i i := h.order.self _

theorem head_le {i : I} (h : node.LawfulClauses) (hSorted : node.SortedInner (mk :: ms))
    (hi : i ∈ mk :: ms) : node.order (node.innerKey mk) (node.innerKey i) ≤ 0 := by
  rcases mem_cons.mp hi with rfl | hTail
  · exact le_of_eq (h.order.self _)
  · exact (pairwise_cons.mp hSorted).1 i hTail

section

variable (hEq : node.order (node.outerKey o) (node.innerKey mk) = 0) {i : I}
include hEq

/-- An outer tuple with the key of the mark is equal to the tuples of the group only. -/
theorem order_eq_iff_sameKey (h : node.LawfulClauses) (i : I) :
    node.order (node.outerKey o) (node.innerKey i) = 0 ↔ node.SameKey mk i := by
  constructor
  · intro hi
    exact h.order.eq_zero_of_eq (h.order.eq_zero_iff.mp hi) (h.order.eq_zero_iff.mp hEq)
  · intro hi
    exact h.order.eq_zero_of_eq (h.order.eq_zero_iff.mp hi) hEq

theorem on_of_not_sameKey (h : node.LawfulClauses) (hi : ¬ node.SameKey mk i) :
    node.on o i = false :=
  h.on_of_order_ne fun hZero => hi ((order_eq_iff_sameKey hEq h i).mp hZero)

variable (h : node.Sound) (hReal : node.constFalseJoin = false)
  (ho : NoNulls (node.outerValues o)) (hmk : NoNulls (node.innerValues mk))
include h hReal ho hmk

/-- In a right or full join an outer tuple with the key of the mark matches the group. -/
theorem on_of_sameKey (hFill : node.jointype.fillInner) (hi : node.SameKey mk i) : node.on o i := by
  rw [MergeJoin.on, h.constant.execQual hFill hReal, Bool.and_true, h.lawful.mergeEq_iff]
  have hNulls : NoNulls (node.innerKey i).1 := noNulls_of_order_eq hmk hi
  exact ⟨ho, hNulls, (order_eq_iff_sameKey hEq h.lawful i).mpr hi⟩

/-- The null-extended inner rows, once an outer tuple with the key of the mark is there. -/
theorem sum_innerFill_group (is : List I) (os : List O) :
    (is.map fun i => node.join.innerFill i (o :: os)).sum =
      ((is.filter fun i => ¬ node.SameKey mk i).map fun i => node.join.innerFill i os).sum := by
  cases hFill : node.jointype.fillInner with
  | false => simp only [node.join.sum_innerFill_of_not_fill hFill]
  | true =>
    induction is with
    | nil => rfl
    | cons i is ih =>
      rw [map_cons, sum_cons, ih]
      by_cases hi : node.SameKey mk i
      · rw [filter_cons_of_neg (by simpa using hi),
          node.join.innerFill_cons_of_on (on_of_sameKey hEq h hReal ho hmk hFill hi), zero_add]
      · rw [filter_cons_of_pos (by simpa using hi), map_cons, sum_cons,
          node.join.innerFill_cons_of_not (on_of_not_sameKey hEq h.lawful hi)]

theorem todo_group (ms : List I) (os : List O) :
    node.join.todo (o :: os) (mk :: ms) =
      node.join.outerRows o (mk :: ms) false + node.groupTodo mk ms os := by
  rw [Join.todo, sum_innerFill_group hEq h hReal ho hmk, map_cons]
  exact add_assoc _ _ _

end

/-- One more outer tuple that matches no inner tuple behind the group. -/
theorem groupTodo_cons (ms : List I) (os : List O)
    (ho : ∀ i, ¬ node.SameKey mk i → node.on o i = false) :
    node.groupTodo mk ms (o :: os) =
      node.join.outerRows o (mk :: ms) false + node.groupTodo mk ms os := by
  have hOn : ∀ i ∈ (mk :: ms).filter fun i => ¬ node.SameKey mk i, node.on o i = false :=
    fun i hi => ho i (by simpa using (mem_filter.mp hi).2)
  rw [MergeJoin.groupTodo, map_cons,
    sum_map_congr fun i hi => node.join.innerFill_cons_of_not (hOn i hi) os]
  exact add_assoc _ _ _

theorem groupTodo_cons_unmatched (ho : ∀ i, node.on o i = false) (mk : I) (ms : List I)
    (os : List O) : node.groupTodo mk ms (o :: os) =
      node.join.outerFill o + node.groupTodo mk ms os := by
  rw [groupTodo_cons ms os fun i _ => ho i, node.join.outerRows_unmatched fun i _ => ho i]
  rfl

/-! ## Leaving a group -/

variable {st : MergeJoinState O I K} {passed ahead : List I}

variable (hPos : Position node st mk ms passed ahead) (h : node.LawfulClauses)
  (hSorted : node.SortedInner (mk :: ms))
include hPos h hSorted

/-- In a right or full join the tuples ahead are behind the group. -/
theorem Position.ahead_not_sameKey
    (hFill : node.jointype.fillInner) : ∀ x ∈ ahead, ¬ node.SameKey mk x := by
  cases hSlot : st.innerTupleSlot with
  | none =>
    rw [(hPos.none hSlot).2 hFill]
    intro x hx
    cases hx
  | some i =>
    obtain ⟨hAhead, hCurrent⟩ := hPos.current i hSlot
    have hNot := (hCurrent hFill).1
    -- the current tuple is no tuple of the group, and the rest is not before it
    have hSuffix : node.SortedInner (i :: st.innerPlan) := by
      rw [hPos.split, hAhead] at hSorted
      exact (pairwise_append.mp hSorted).2.1
    have hMark : node.order (node.innerKey mk) (node.innerKey i) ≤ 0 := by
      apply head_le h hSorted
      rw [hPos.split, hAhead]
      exact mem_append_right _ mem_cons_self
    rw [hAhead]
    intro x hx
    rcases mem_cons.mp hx with rfl | hTail
    · exact hNot
    · have hLe := (pairwise_cons.mp hSuffix).1 x hTail
      exact ne_of_lt (h.order.neg_of_lt (lt_of_le_of_ne hMark hNot) hLe)

/-- The inner rows that `groupTodo` may null-extend are those ahead. -/
theorem Position.sum_innerFill (os : List O) :
    (((mk :: ms).filter fun i => ¬ node.SameKey mk i).map fun i => node.join.innerFill i os).sum =
      (ahead.map fun i => node.join.innerFill i os).sum := by
  cases hFill : node.jointype.fillInner with
  | false => simp only [node.join.sum_innerFill_of_not_fill hFill]
  | true =>
    have hPassed : passed.filter (fun i => ¬ node.SameKey mk i) = [] := by
      rw [filter_eq_nil_iff]
      intro x hx
      simpa using hPos.same x hx
    have hAhead : ahead.filter (fun i => ¬ node.SameKey mk i) = ahead := by
      rw [filter_eq_self]
      intro x hx
      simpa using hPos.ahead_not_sameKey h hSorted hFill x hx
    rw [hPos.split, filter_append, hPassed, hAhead, nil_append]

/-- The outer tuples are all behind the group: what is left is the join with the inner
tuples ahead. -/
theorem Position.groupTodo_eq
    (hAfter : ∀ x ∈ os, 0 < node.order (node.outerKey x) (node.innerKey mk)) :
    node.groupTodo mk ms os = node.join.todo os ahead := by
  rw [MergeJoin.groupTodo, hPos.sum_innerFill h hSorted]
  congr 1
  refine sum_map_congr fun x hx => ?_
  rw [hPos.split]
  refine Join.outerRows_append (fun i hi => h.on_of_order_ne ?_) ahead false
  have hGt := hAfter x hx
  have hSame := hPos.same i hi
  have hPos' := h.order.pos_of_le (le_of_eq (h.order.eq_zero_iff.mp hSame)) hGt
  omega

end PgTuning.Executor
