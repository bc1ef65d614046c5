import PgTuning.Executor.MergeJoin

/-!
# The order of the merge keys

The inputs of a merge join are sorted by the values of its clauses, column by column, with
nulls at one end of each column. `MJCompare` compares in this order, and two tuples match
in all clauses exactly when neither has a null and the comparison is zero.
-/

namespace PgTuning.Executor

open Lib.ThreeWay List Option

variable {O I K R : Type}

/-- The comparison function implements a total order, and its result can be negated. -/
structure MergeJoinClause.Lawful (clause : MergeJoinClause O I K) : Prop where
  cmp : Lib.ThreeWay.Lawful clause.cmp
  negatable : ∀ a b, clause.cmp a b ≠ -2147483648

/-- The sort order of a merge key. -/
def MergeJoinClause.order (clause : MergeJoinClause O I K) : Option K → Option K → Int
  | none, none => 0
  | none, some _ => if clause.nullsFirst then -1 else 1
  | some _, none => if clause.nullsFirst then 1 else -1
  | some a, some b => clause.compareDatums a b

namespace MergeJoinClause

variable {clause : MergeJoinClause O I K}

variable (h : clause.Lawful)
include h

theorem Lawful.compareDatums : Lib.ThreeWay.Lawful clause.compareDatums := by
  have hNeg : ∀ a b, Nbtree.negInt32 (clause.cmp a b) = -clause.cmp a b := by
    intro a b
    rw [Nbtree.negInt32, if_neg (h.negatable a b)]
  unfold MergeJoinClause.compareDatums
  cases clause.reverse with
  | false => exact h.cmp
  | true =>
    simp only [if_true, hNeg]
    refine ⟨fun a b => ?_, fun {a b c} hab hbc => ?_⟩
    · have hSwap := h.cmp.swap b a
      omega
    · have hTrans := h.cmp.trans (h.cmp.nonneg_iff.mp (by omega : 0 ≤ clause.cmp b c))
        (h.cmp.nonneg_iff.mp (by omega : 0 ≤ clause.cmp a b))
      have hBack := h.cmp.nonneg_iff.mpr hTrans
      omega

theorem Lawful.compareDatums_eq_zero (a b : K) :
    clause.compareDatums a b = 0 ↔ clause.cmp a b = 0 := by
  unfold MergeJoinClause.compareDatums
  split_ifs
  · rw [Nbtree.negInt32, if_neg (h.negatable a b)]
    omega
  · exact Iff.rfl

theorem Lawful.order : Lib.ThreeWay.Lawful clause.order where
  swap := by
    intro a b
    cases a with
    | none =>
      cases b with
      | none => simp [MergeJoinClause.order]
      | some b => cases hFirst : clause.nullsFirst <;> simp [MergeJoinClause.order, hFirst]
    | some a =>
      cases b with
      | none => cases hFirst : clause.nullsFirst <;> simp [MergeJoinClause.order, hFirst]
      | some b => exact h.compareDatums.swap a b
  trans := by
    intro a b c
    cases a with
    | none =>
      cases b <;> cases c <;> cases hFirst : clause.nullsFirst <;>
        simp [MergeJoinClause.order, hFirst]
    | some a =>
      cases c with
      | none =>
        cases b <;> cases hFirst : clause.nullsFirst <;>
          simp [MergeJoinClause.order]
      | some c =>
        cases b with
        | none => cases hFirst : clause.nullsFirst <;> simp [MergeJoinClause.order, hFirst]
        | some b => exact h.compareDatums.trans

end MergeJoinClause

/-- The comparison functions of all clauses are lawful. -/
def MergeJoin.LawfulClauses (node : MergeJoin O I K R) : Prop :=
  ∀ clause ∈ node.clauses, clause.Lawful

section Keys

variable (node : MergeJoin O I K R)

/-- The columns of the merge keys. -/
def MergeJoin.columns : List (Option K → Option K → Int) :=
  node.clauses.map MergeJoinClause.order

/-- A merge key: a value for each clause. -/
abbrev MergeJoin.Key : Type := {values : List (Option K) // values.length = node.columns.length}

def MergeJoin.outerKey (o : O) : node.Key :=
  ⟨node.outerValues o, by simp [MergeJoin.outerValues, MergeJoin.columns]⟩

def MergeJoin.innerKey (i : I) : node.Key :=
  ⟨node.innerValues i, by simp [MergeJoin.innerValues, MergeJoin.columns]⟩

def MergeJoin.order (a b : node.Key) : Int := lexCompare node.columns a.1 b.1

def MergeJoin.SortedOuter (os : List O) : Prop :=
  os.Pairwise fun a b => node.order (node.outerKey a) (node.outerKey b) ≤ 0

def MergeJoin.SortedInner (is : List I) : Prop :=
  is.Pairwise fun a b => node.order (node.innerKey a) (node.innerKey b) ≤ 0

def NoNulls (values : List (Option K)) : Prop := ∀ value ∈ values, value.isSome = true

instance (values : List (Option K)) : Decidable (NoNulls values) :=
  inferInstanceAs (Decidable (∀ value ∈ values, value.isSome = true))

theorem noNulls_nil : NoNulls ([] : List (Option K)) := by simp [NoNulls]

theorem noNulls_some_cons (a : K) (values : List (Option K)) :
    NoNulls (some a :: values) ↔ NoNulls values := by
  simp [NoNulls]

theorem not_noNulls_none_cons (values : List (Option K)) : ¬ NoNulls (none :: values) := by
  simp [NoNulls]

/-- All merge clauses are true of the two tuples. -/
def MergeJoin.mergeEq (o : O) (i : I) : Bool :=
  node.clauses.all fun clause =>
    match clause.lexpr o, clause.rexpr i with
    | some a, some b => clause.cmp a b == 0
    | _, _ => false

/-- The join condition: the merge clauses and the join quals. -/
def MergeJoin.on (o : O) (i : I) : Bool := node.mergeEq o i && execQual node.joinqual o i

end Keys

variable {node : MergeJoin O I K R} {clauses : List (MergeJoinClause O I K)}
  {values : List (Option K)}

theorem MergeJoin.LawfulClauses.order (h : node.LawfulClauses) : Lawful node.order :=
  lexCompare_lawful (by
    intro cmp hcmp
    obtain ⟨clause, hClause, rfl⟩ := mem_map.mp hcmp
    exact (h clause hClause).order)

/-- Two tuples match exactly when they have no null and their keys are equal. -/
theorem MergeJoin.LawfulClauses.mergeEq_iff (h : node.LawfulClauses) (o : O) (i : I) :
    node.mergeEq o i ↔ NoNulls (node.outerValues o) ∧ NoNulls (node.innerValues i) ∧
      node.order (node.outerKey o) (node.innerKey i) = 0 := by
  unfold MergeJoin.mergeEq MergeJoin.order MergeJoin.outerKey MergeJoin.innerKey
  unfold MergeJoin.outerValues MergeJoin.innerValues MergeJoin.columns
  unfold MergeJoin.LawfulClauses at h
  dsimp only
  generalize node.clauses = clauses at h
  induction clauses with
  | nil => simp [NoNulls, lexCompare]
  | cons clause clauses ih =>
    have hClause := h clause mem_cons_self
    have hRest := ih fun c hc => h c (mem_cons_of_mem _ hc)
    rw [all_cons, Bool.and_eq_true, hRest]
    simp only [map_cons, NoNulls, lexCompare]
    cases hl : clause.lexpr o with
    | none => simp
    | some a =>
      cases hr : clause.rexpr i with
      | none => simp
      | some b =>
        have hZero := hClause.compareDatums_eq_zero a b
        by_cases hEq : clause.cmp a b = 0
        · simp [MergeJoinClause.order, hEq, hZero.mpr hEq]
        · simp [MergeJoinClause.order, hEq, hZero]

/-! ## `MJCompare` -/

theorem mjCompareLoop_eq (clauses : List (MergeJoinClause O I K)) (ls rs : List (Option K))
    (hl : NoNulls ls) (hr : NoNulls rs) (nulleqnull : Bool) :
    mjCompareLoop clauses ls rs nulleqnull =
      (lexCompare (clauses.map MergeJoinClause.order) ls rs, nulleqnull) := by
  induction clauses generalizing ls rs with
  | nil => rfl
  | cons clause clauses ih =>
    cases ls with
    | nil => rfl
    | cons l ls =>
      cases rs with
      | nil => rfl
      | cons r rs =>
        have hRest := ih ls rs (fun v hv => hl v (mem_cons_of_mem _ hv))
          (fun v hv => hr v (mem_cons_of_mem _ hv))
        obtain ⟨a, rfl⟩ := isSome_iff_exists.mp (hl l mem_cons_self)
        obtain ⟨b, rfl⟩ := isSome_iff_exists.mp (hr r mem_cons_self)
        rw [mjCompareLoop, hRest, map_cons, lexCompare]
        by_cases hEq : clause.compareDatums a b = 0
        · simp [MergeJoinClause.order, hEq]
        · simp [MergeJoinClause.order, hEq]

theorem mjCompare_eq {st : MergeJoinState O I K} {o : O} {i : I}
    (hl : st.ldatum = node.outerValues o) (hr : st.rdatum = node.innerValues i)
    (ho : NoNulls (node.outerValues o)) (hi : NoNulls (node.innerValues i)) :
    mjCompare node st =
      if node.order (node.outerKey o) (node.innerKey i) = 0 ∧ node.constFalseJoin then 1
      else node.order (node.outerKey o) (node.innerKey i) := by
  rw [mjCompare, hl, hr, mjCompareLoop_eq _ _ _ ho hi]
  rfl

/-! ## `MJEvalOuterValues` and `MJEvalInnerValues` -/

/-- Behind the first column the loop only looks for a null. -/
theorem mjEvalLoop_succ (fill : Bool) (n : Nat) (result : MJEvalResult)
    (clauses : List (MergeJoinClause O I K)) (values : List (Option K))
    (hLen : values.length = clauses.length) :
    mjEvalLoop fill (n + 1) result clauses values =
      if result = .matchable ∧ ¬ NoNulls values then .nonmatchable else result := by
  induction clauses generalizing n result values with
  | nil =>
    rw [length_nil, length_eq_zero_iff] at hLen
    subst hLen
    simp [mjEvalLoop, noNulls_nil]
  | cons clause clauses ih =>
    cases values with
    | nil => simp at hLen
    | cons value values =>
      rw [mjEvalLoop, ih _ _ _ (by simpa using hLen)]
      cases value with
      | some a =>
        by_cases hNulls : NoNulls values <;> simp [mjEvalValue, noNulls_some_cons, hNulls]
      | none =>
        by_cases hResult : result = .matchable
        · simp [not_noNulls_none_cons, hResult, mjEvalValue]
        · simp [hResult, mjEvalValue]

/-- A tuple is matchable exactly when it has no null. -/
theorem mjEvalLoop_matchable (fill : Bool) (clauses : List (MergeJoinClause O I K))
    (values : List (Option K)) (hLen : values.length = clauses.length) :
    mjEvalLoop fill 0 .matchable clauses values = .matchable ↔ NoNulls values := by
  cases clauses with
  | nil =>
    rw [length_nil, length_eq_zero_iff] at hLen
    subst hLen
    simp [mjEvalLoop, noNulls_nil]
  | cons clause clauses =>
    cases values with
    | nil => simp at hLen
    | cons value values =>
      rw [mjEvalLoop, mjEvalLoop_succ _ _ _ _ _ (by simpa using hLen)]
      cases value with
      | some a =>
        by_cases hNulls : NoNulls values <;> simp [mjEvalValue, noNulls_some_cons]
      | none =>
        by_cases hEnd : clause.nullsFirst = false ∧ fill = false
        · simp [not_noNulls_none_cons, mjEvalValue, hEnd]
        · simp [not_noNulls_none_cons, mjEvalValue, hEnd]

/-- The end of the join comes early only in the first column, for nulls that sort last,
on a side that need not be visited to its end. -/
theorem mjEvalLoop_endOfJoin {fill : Bool} (hLen : values.length = clauses.length)
    (hEnd : mjEvalLoop fill 0 .matchable clauses values = .endOfJoin) :
    fill = false ∧ ∃ clause clauses' values', clauses = clause :: clauses' ∧
      values = none :: values' ∧ clause.nullsFirst = false := by
  cases clauses with
  | nil => simp [mjEvalLoop] at hEnd
  | cons clause clauses =>
    cases values with
    | nil => simp at hLen
    | cons value values =>
      rw [mjEvalLoop, mjEvalLoop_succ _ _ _ _ _ (by simpa using hLen)] at hEnd
      cases value with
      | some a => by_cases hNulls : NoNulls values <;> simp [mjEvalValue, hNulls] at hEnd
      | none =>
        by_cases hCond : clause.nullsFirst = false ∧ fill = false
        · exact ⟨hCond.2, clause, clauses, values, rfl, rfl, hCond.1⟩
        · simp [mjEvalValue, hCond] at hEnd

/-- Behind a tuple with a null in its first column, where nulls sort last, every tuple has
one there. -/
theorem head_none_of_le {a b : node.Key} {clause : MergeJoinClause O I K}
    (hClauses : node.clauses = clause :: clauses) (hFirst : clause.nullsFirst = false)
    (ha : a.1 = none :: values) (hLe : node.order a b ≤ 0) : ¬ NoNulls b.1 := by
  obtain ⟨b, hb⟩ := b
  intro hNulls
  have hColumns : node.columns = clause.order :: clauses.map MergeJoinClause.order := by
    rw [MergeJoin.columns, hClauses, map_cons]
  rw [MergeJoin.order, ha] at hLe
  dsimp only at hLe
  rw [hColumns] at hLe
  cases b with
  | nil => simp [hColumns] at hb
  | cons value b =>
    obtain ⟨v, rfl⟩ := isSome_iff_exists.mp (hNulls value mem_cons_self)
    simp [lexCompare, MergeJoinClause.order, hFirst] at hLe

end PgTuning.Executor
