import PgTuning.Executor.MergeJoinOrder

/-!
# What a merge join has left to emit

For every state of the machine, `Pending` says what may be assumed of the slots, the flags,
the inputs and the mark, and which rows are still to be emitted, as a multiset. Outside
of a group of equal keys these are the rows of the join of the two inputs from the current
tuples on. Within a group the inner rows from the mark on are still needed for the next
outer rows.
-/

namespace PgTuning.Executor

open Lib.ThreeWay List Bool Option MergeJoin

variable {O I K R : Type} {node : MergeJoin O I K R}

/-! ## Constant join quals -/

theorem checkConstantQual_eq_some {quals : List (Qual O I)} {isConstFalse result : Bool}
    (h : checkConstantQual quals isConstFalse = some result) (o : O) (i : I) :
    result = (isConstFalse || !execQual quals o i) := by
  induction quals generalizing isConstFalse with
  | nil =>
    rw [checkConstantQual, Option.some.injEq] at h
    simp [h, execQual]
  | cons qual quals ih =>
    cases qual with
    | expr eval => simp [checkConstantQual] at h
    | const value =>
      rw [ih h]
      by_cases hTrue : value = some true
      · simp [execQual, Qual.eval, hTrue]
      · simp [execQual, Qual.eval, hTrue]

/-- The initialisation has found the join quals of a right or full join constant. -/
def MergeJoin.ConstantQuals (node : MergeJoin O I K R) : Prop :=
  node.jointype.fillInner = true → checkConstantQual node.joinqual false ≠ none

theorem MergeJoin.execQual_of_constFalse (h : node.constFalseJoin) (o : O) (i : I) :
    execQual node.joinqual o i = false := by
  rw [constFalseJoin, and_eq_true] at h
  cases hCheck : checkConstantQual node.joinqual false with
  | none => simp [hCheck] at h
  | some result =>
    have hEq := checkConstantQual_eq_some hCheck o i
    simp only [hCheck, getD_some] at h
    simpa [h.2] using hEq

theorem MergeJoin.ConstantQuals.execQual (h : node.ConstantQuals)
    (hFill : node.jointype.fillInner) (hReal : node.constFalseJoin = false) (o : O) (i : I) :
    Executor.execQual node.joinqual o i := by
  rw [constFalseJoin, hFill, Bool.true_and] at hReal
  obtain ⟨result, hCheck⟩ := ne_none_iff_exists'.mp (h hFill)
  have hEq := checkConstantQual_eq_some hCheck o i
  rw [hCheck, getD_some] at hReal
  simpa [hReal] using hEq

/-! ## Tuples that do not match -/

/-- The join that the node computes. -/
abbrev MergeJoin.join (node : MergeJoin O I K R) : Join O I R := ⟨node.jointype, node.on, node.emit⟩

section Unmatched

variable {o : O} {i : I} {os : List O} {is : List I}

section

variable (h : node.LawfulClauses)
include h

theorem MergeJoin.LawfulClauses.of_on (hOn : node.on o i) :
    NoNulls (node.outerValues o) ∧ NoNulls (node.innerValues i) ∧
      node.order (node.outerKey o) (node.innerKey i) = 0 := by
  rw [on, and_eq_true] at hOn
  exact (h.mergeEq_iff o i).mp hOn.1

theorem MergeJoin.LawfulClauses.on_of_order_ne
    (hne : node.order (node.outerKey o) (node.innerKey i) ≠ 0) : node.on o i = false :=
  eq_false_iff.mpr fun hOn => hne (h.of_on hOn).2.2

theorem MergeJoin.LawfulClauses.on_of_outer_null
    (ho : ¬ NoNulls (node.outerValues o)) (i : I) : node.on o i = false :=
  eq_false_iff.mpr fun hOn => ho (h.of_on hOn).1

theorem MergeJoin.LawfulClauses.on_of_inner_null
    (hi : ¬ NoNulls (node.innerValues i)) (o : O) : node.on o i = false :=
  eq_false_iff.mpr fun hOn => hi (h.of_on hOn).2.1

/-- An outer tuple before an inner one matches nothing from there on. -/
theorem MergeJoin.LawfulClauses.on_of_before
    (hLt : node.order (node.outerKey o) (node.innerKey i) < 0) (hSorted : node.SortedInner (i :: is)) :
    ∀ j ∈ i :: is, node.on o j = false := by
  intro j hj
  apply h.on_of_order_ne
  rcases mem_cons.mp hj with rfl | hTail
  · omega
  · have hLe := (pairwise_cons.mp hSorted).1 j hTail
    exact Int.ne_of_lt (h.order.neg_of_lt hLt hLe)

theorem MergeJoin.LawfulClauses.on_of_after
    (hGt : 0 < node.order (node.outerKey o) (node.innerKey i)) (hSorted : node.SortedOuter (o :: os)) :
    ∀ x ∈ o :: os, node.on x i = false := by
  intro x hx
  apply h.on_of_order_ne
  rcases mem_cons.mp hx with rfl | hTail
  · omega
  · intro hEq
    have hLe := (pairwise_cons.mp hSorted).1 x hTail
    have hBack := h.order.trans hLe (Int.le_of_eq hEq)
    omega

end

/-- What the evaluation of the join values of `x` finds, in an input that goes on with `xs`.
Where it ends the join early there are only tuples with a null left. -/
def Found {X : Type} (fill : Bool) (values : X → List (Option K)) (x : X) (xs : List X) :
    MJEvalResult → Prop
  | .matchable => NoNulls (values x)
  | .nonmatchable => ¬ NoNulls (values x)
  | .endOfJoin => fill = false ∧ ∀ y ∈ x :: xs, ¬ NoNulls (values y)

theorem found_eval {X : Type} (key : X → node.Key) {x : X} {xs : List X} (fill : Bool)
    (hSorted : (x :: xs).Pairwise fun a b => node.order (key a) (key b) ≤ 0) :
    Found fill (fun y => (key y).1) x xs (mjEvalLoop fill 0 .matchable node.clauses (key x).1) := by
  have hLen : (key x).1.length = node.clauses.length := by
    simpa [columns] using (key x).2
  have hLoop := mjEvalLoop_matchable fill node.clauses (key x).1 hLen
  cases hEval : mjEvalLoop fill 0 .matchable node.clauses (key x).1 with
  | matchable => exact hLoop.mp hEval
  | nonmatchable =>
    show ¬ NoNulls (key x).1
    rw [← hLoop, hEval]
    decide
  | endOfJoin =>
    obtain ⟨hFill, clause, clauses, values, hClauses, hValues, hFirst⟩ :=
      mjEvalLoop_endOfJoin hLen hEval
    refine ⟨hFill, forall_mem_cons.mpr ⟨?_, fun y hy => ?_⟩⟩
    · dsimp only
      rw [hValues]
      exact not_noNulls_none_cons values
    · exact head_none_of_le hClauses hFirst hValues ((pairwise_cons.mp hSorted).1 y hy)

theorem found_outer (hSorted : node.SortedOuter (o :: os)) :
    Found node.jointype.fillOuter node.outerValues o os
      (mjEvalLoop node.jointype.fillOuter 0 .matchable node.clauses (node.outerValues o)) :=
  found_eval node.outerKey _ hSorted

theorem found_inner (hSorted : node.SortedInner (i :: is)) :
    Found node.jointype.fillInner node.innerValues i is
      (mjEvalLoop node.jointype.fillInner 0 .matchable node.clauses (node.innerValues i)) :=
  found_eval node.innerKey _ hSorted

end Unmatched

theorem noNulls_of_lexCompare_eq {clauses : List (MergeJoinClause O I K)} {a b : List (Option K)}
    (hLenA : a.length = clauses.length) (hLenB : b.length = clauses.length) (ha : NoNulls a)
    (hEq : lexCompare (clauses.map MergeJoinClause.order) a b = 0) : NoNulls b := by
  induction clauses generalizing a b with
  | nil =>
    rw [length_nil, length_eq_zero_iff] at hLenB
    rw [hLenB]
    exact noNulls_nil
  | cons clause clauses ih =>
    obtain _ | ⟨x, a⟩ := a
    · simp at hLenA
    obtain _ | ⟨y, b⟩ := b
    · simp at hLenB
    obtain ⟨v, rfl⟩ := isSome_iff_exists.mp (ha x mem_cons_self)
    rw [map_cons, lexCompare] at hEq
    cases y with
    | none =>
      cases hFirst : clause.nullsFirst <;> simp [MergeJoinClause.order, hFirst] at hEq
    | some y =>
      by_cases hCol : clause.order (some v) (some y) = 0
      · rw [if_neg (not_not.mpr hCol)] at hEq
        exact (noNulls_some_cons y b).mpr (ih (by simpa using hLenA) (by simpa using hLenB)
          ((noNulls_some_cons v a).mp ha) hEq)
      · rw [if_pos hCol] at hEq
        exact absurd hEq hCol

theorem noNulls_of_order_eq {a b : node.Key} (ha : NoNulls a.1) (hEq : node.order a b = 0) :
    NoNulls b.1 :=
  noNulls_of_lexCompare_eq (by simpa [columns] using a.2)
    (by simpa [columns] using b.2) ha hEq

/-! ## The states -/

/-- The current outer tuple is matchable and its values are loaded. -/
structure OuterAt (node : MergeJoin O I K R) (st : MergeJoinState O I K) (o : O) : Prop where
  slot : st.outerTupleSlot = some o
  loaded : st.ldatum = node.outerValues o
  noNulls : NoNulls (node.outerValues o)
  sorted : node.SortedOuter (o :: st.outerPlan)

/-- The current inner tuple is matchable and its values are loaded. -/
structure InnerAt (node : MergeJoin O I K R) (st : MergeJoinState O I K) (i : I) : Prop where
  slot : st.innerTupleSlot = some i
  loaded : st.rdatum = node.innerValues i
  noNulls : NoNulls (node.innerValues i)
  sorted : node.SortedInner (i :: st.innerPlan)

/-- The inner plan is marked at a tuple that began a group of equal keys. -/
structure Marked (node : MergeJoin O I K R) (st : MergeJoinState O I K) (mk : I) (ms : List I) :
    Prop where
  slot : st.markedTupleSlot = some mk
  mark : st.innerMark = ms
  noNulls : NoNulls (node.innerValues mk)
  sorted : node.SortedInner (mk :: ms)
  real : node.constFalseJoin = false

def MergeJoin.SameKey (node : MergeJoin O I K R) (i j : I) : Prop :=
  node.order (node.innerKey i) (node.innerKey j) = 0

instance (i j : I) : Decidable (node.SameKey i j) :=
  inferInstanceAs (Decidable (node.order (node.innerKey i) (node.innerKey j) = 0))

/-- The outer rows still to come are joined with the inner rows from the mark on; inner
rows behind the group are null-extended unless they match one of these. -/
def MergeJoin.groupTodo (node : MergeJoin O I K R) (mk : I) (ms : List I) (os : List O) :
    Multiset R :=
  (os.map fun o => node.join.outerRows o (mk :: ms) false).sum +
    (((mk :: ms).filter fun i => ¬ node.SameKey mk i).map fun i => node.join.innerFill i os).sum

/-- The null-extended row of the current outer tuple, if it is still to be emitted. -/
def MergeJoin.outerSlotFill (node : MergeJoin O I K R) (st : MergeJoinState O I K) (o : O) :
    Multiset R :=
  if st.matchedOuter then 0 else node.join.outerFill o

/-- The null-extended row of the current inner tuple, if it is still to be emitted. -/
def MergeJoin.slotFill (node : MergeJoin O I K R) (st : MergeJoinState O I K) : Multiset R :=
  match st.innerTupleSlot with
  | some i => if st.matchedInner then 0 else node.join.innerFillRow i
  | none => 0

/-- Where the inner scan is when the outer side is advanced: `passed` has the key of the
mark, and `ahead` is what the scan has still before it, the current tuple first. Without a
current tuple nothing ahead can match, and nothing ahead is to be null-extended. -/
structure Position (node : MergeJoin O I K R) (st : MergeJoinState O I K) (mk : I) (ms : List I)
    (passed ahead : List I) : Prop where
  split : mk :: ms = passed ++ ahead
  same : ∀ x ∈ passed, node.SameKey mk x
  current : ∀ i, st.innerTupleSlot = some i → ahead = i :: st.innerPlan ∧
    (node.jointype.fillInner = true → ¬ node.SameKey mk i ∧ st.matchedInner = false)
  none : st.innerTupleSlot = none → (∀ x ∈ ahead, ¬ NoNulls (node.innerValues x)) ∧
    (node.jointype.fillInner = true → ahead = [])

/-- What is assumed of each state, and the rows still to be emitted. -/
def Pending (node : MergeJoin O I K R) (st : MergeJoinState O I K) (todo : Multiset R) : Prop :=
  match st.joinState with
  | .initializeOuter => st.matchedInner = false ∧ st.matchedOuter = false ∧
      node.SortedOuter st.outerPlan ∧ node.SortedInner st.innerPlan ∧
      todo = node.join.todo st.outerPlan st.innerPlan
  | .initializeInner => ∃ o, st.matchedInner = false ∧ st.matchedOuter = false ∧
      OuterAt node st o ∧ node.SortedInner st.innerPlan ∧
      todo = node.join.todo (o :: st.outerPlan) st.innerPlan
  | .skipTest => ∃ o i, (node.jointype.fillInner = true → st.matchedInner = false) ∧
      st.matchedOuter = false ∧ OuterAt node st o ∧ InnerAt node st i ∧
      todo = node.join.todo (o :: st.outerPlan) (i :: st.innerPlan)
  | .skipOuterAdvance => ∃ o i, (node.jointype.fillInner = true → st.matchedInner = false) ∧
      st.outerTupleSlot = some o ∧ node.SortedOuter st.outerPlan ∧ InnerAt node st i ∧
      todo = node.outerSlotFill st o + node.join.todo st.outerPlan (i :: st.innerPlan)
  | .skipInnerAdvance => ∃ o i, st.matchedOuter = false ∧ OuterAt node st o ∧
      st.innerTupleSlot = some i ∧ node.SortedInner st.innerPlan ∧
      todo = (if st.matchedInner then 0 else node.join.innerFillRow i) +
        node.join.todo (o :: st.outerPlan) st.innerPlan
  | .joinTuples => ∃ o i mk ms passed, OuterAt node st o ∧ Marked node st mk ms ∧
      node.order (node.outerKey o) (node.innerKey mk) = 0 ∧ st.innerTupleSlot = some i ∧
      mk :: ms = passed ++ i :: st.innerPlan ∧ (∀ x ∈ passed ++ [i], node.SameKey mk x) ∧
      todo = node.join.outerRows o (i :: st.innerPlan) st.matchedOuter +
        node.groupTodo mk ms st.outerPlan
  | .nextInner => ∃ o mk ms passed, OuterAt node st o ∧ Marked node st mk ms ∧
      node.order (node.outerKey o) (node.innerKey mk) = 0 ∧
      (node.jointype.fillInner = true → st.matchedInner = true) ∧
      mk :: ms = passed ++ st.innerPlan ∧ (∀ x ∈ passed, node.SameKey mk x) ∧
      todo = node.join.outerRows o st.innerPlan st.matchedOuter + node.groupTodo mk ms st.outerPlan
  | .nextOuter => ∃ o mk ms passed ahead, st.outerTupleSlot = some o ∧
      node.SortedOuter st.outerPlan ∧
      (∀ x ∈ st.outerPlan, 0 ≤ node.order (node.outerKey x) (node.innerKey mk)) ∧
      Marked node st mk ms ∧ Position node st mk ms passed ahead ∧
      todo = node.outerSlotFill st o + node.groupTodo mk ms st.outerPlan
  | .testOuter => ∃ o mk ms passed ahead, st.matchedOuter = false ∧ OuterAt node st o ∧
      (∀ x ∈ o :: st.outerPlan, 0 ≤ node.order (node.outerKey x) (node.innerKey mk)) ∧
      Marked node st mk ms ∧ Position node st mk ms passed ahead ∧
      todo = node.groupTodo mk ms (o :: st.outerPlan)
  | .endOuter => node.jointype.fillInner = true ∧
      (st.matchedInner = false → st.innerTupleSlot ≠ none) ∧
      todo = node.slotFill st + node.join.todo [] st.innerPlan
  | .endInner => ∃ o, node.jointype.fillOuter = true ∧ st.outerTupleSlot = some o ∧
      todo = node.outerSlotFill st o + node.join.todo st.outerPlan []

end PgTuning.Executor
