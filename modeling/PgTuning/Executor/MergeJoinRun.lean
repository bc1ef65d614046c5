import PgTuning.Executor.MergeJoinGroupSteps

/-!
# Runs of a merge join

Every turn keeps `Pending` and makes the machine smaller, so the loop ends, no assertion
fails on the way, and the rows that were emitted are those of the join.
-/

namespace PgTuning.Executor

variable {O I K R : Type} {node : MergeJoin O I K R} {st : MergeJoinState O I K}

theorem mjStep_leads (h : node.Sound) {todo : Multiset R}
    (hPending : Pending node st todo) : Leads node st todo (mjStep node st) := by
  unfold mjStep
  cases hAt : st.joinState with
  | initializeOuter => exact leads_initializeOuter h hPending hAt
  | initializeInner => exact leads_initializeInner h hPending hAt
  | skipTest => exact leads_skipTest h hPending hAt
  | skipOuterAdvance => exact leads_skipOuter h hPending hAt
  | skipInnerAdvance => exact leads_skipInner h hPending hAt
  | joinTuples =>
    obtain ⟨o, i, hOuter, hInner, hLeads⟩ := leads_joinTuples h hPending hAt
    rw [hOuter, hInner]
    exact hLeads
  | nextInner => exact leads_nextInner h hPending hAt
  | nextOuter => exact leads_nextOuter h hPending hAt
  | testOuter => exact leads_testOuter hPending h hAt
  | endOuter =>
    obtain ⟨hFill, hLeads⟩ := leads_endOuter hPending hAt
    exact (if_pos hFill).symm ▸ hLeads
  | endInner =>
    obtain ⟨hFill, hLeads⟩ := leads_endInner hPending hAt
    exact (if_pos hFill).symm ▸ hLeads

/-- A run from any state ends, without a failed assertion, and emits what is pending. -/
theorem execMergeJoin_of_pending (h : node.Sound) (st : MergeJoinState O I K) :
    ∀ todo, Pending node st todo → ∃ rows : List R, ↑rows = todo ∧
      ∃ n, ∀ fuel, n ≤ fuel → execMergeJoin node fuel st = some rows := by
  induction st using smaller_wf.induction with
  | h st ih =>
    intro todo hPending
    have hLeads := mjStep_leads h hPending
    cases hStep : mjStep node st with
    | done =>
      rw [hStep] at hLeads
      refine ⟨[], hLeads.symm, 1, fun fuel hFuel => ?_⟩
      obtain ⟨k, rfl⟩ := Nat.exists_eq_add_of_le' hFuel
      rw [execMergeJoin, hStep]
    | assertFailed =>
      rw [hStep] at hLeads
      exact hLeads.elim
    | next st' rows =>
      rw [hStep] at hLeads
      obtain ⟨todo', hNext, hTodo, hSmaller⟩ := hLeads
      obtain ⟨rest, hRest, n, hRun⟩ := ih st' hSmaller todo' hNext
      refine ⟨rows ++ rest, ?_, n + 1, fun fuel hFuel => ?_⟩
      · rw [← Multiset.coe_add, hRest, hTodo]
      · obtain ⟨k, rfl⟩ := Nat.exists_eq_add_of_le' hFuel
        rw [← Nat.add_assoc, execMergeJoin, hStep]
        dsimp only
        rw [hRun (k + n) (Nat.le_add_left n k)]
        rfl

theorem pending_of_init {outer : List O} {inner : List I} (hOuter : node.SortedOuter outer)
    (hInner : node.SortedInner inner) (hInit : execInitMergeJoin node outer inner = .ok st) :
    node.ConstantQuals ∧ Pending node st (node.join.todo outer inner) := by
  unfold execInitMergeJoin at hInit
  split at hInit
  next => cases hInit
  next => cases hInit
  next hRight hFull =>
    refine ⟨fun hFill hNone => ?_, ?_⟩
    · cases hType : node.jointype with
      | right => exact hRight hType hNone
      | full => exact hFull hType hNone
      | inner => simp [hType, JoinType.fillInner] at hFill
      | left => simp [hType, JoinType.fillInner] at hFill
      | semi => simp [hType, JoinType.fillInner] at hFill
      | anti => simp [hType, JoinType.fillInner] at hFill
    · rw [← Except.ok.inj hInit]
      exact ⟨rfl, rfl, hOuter, hInner, rfl⟩

/-- **A merge join computes the join.**  For inputs sorted by the merge keys, a run of the
machine ends, no assertion on the way fails, and the rows it has returned are those of the
relational join, each as often. -/
theorem execMergeJoin_perm_relationalJoin (node : MergeJoin O I K R) (hLawful : node.LawfulClauses)
    (outer : List O) (inner : List I) (hOuter : node.SortedOuter outer)
    (hInner : node.SortedInner inner) (st : MergeJoinState O I K)
    (hInit : execInitMergeJoin node outer inner = .ok st) :
    ∃ rows : List R, rows.Perm (relationalJoin node.on node.emit outer inner node.jointype) ∧
      ∃ n, ∀ fuel, n ≤ fuel → execMergeJoin node fuel st = some rows := by
  obtain ⟨hConstant, hPending⟩ := pending_of_init hOuter hInner hInit
  obtain ⟨rows, hRows, hRun⟩ := execMergeJoin_of_pending ⟨hLawful, hConstant⟩ st _ hPending
  have hJoin := coe_relationalJoin node.join outer inner
  exact ⟨rows, Multiset.coe_eq_coe.mp (hRows.trans hJoin.symm), hRun⟩

/-- A full join of two lists of nullable numbers, sorted in descending order with the nulls
last. -/
def fullJoin : MergeJoin (Option Nat) (Option Nat) Nat (Option (Option Nat) × Option (Option Nat)) where
  jointype := .full
  clauses := [{
    lexpr := id
    rexpr := id
    cmp := fun a b => if a < b then -1 else if a = b then 0 else 1
    reverse := true
    nullsFirst := false }]
  joinqual := [.const (some true)]
  otherqual := fun _ _ => true
  project := fun o i => [(o, i)]
  extraMarks := true
  outer_only := by
    intro hType
    cases hType <;> contradiction

theorem fullJoin_lawful : fullJoin.LawfulClauses := by
  intro clause hClause
  rw [fullJoin, List.mem_singleton] at hClause
  rw [hClause]
  refine ⟨⟨fun a b => ?_, fun {a b c} => ?_⟩, fun a b => ?_⟩
  · dsimp only
    split_ifs <;> omega
  · dsimp only
    split_ifs <;> omega
  · dsimp only
    split_ifs <;> omega

theorem execMergeJoin_fullJoin :
    ∃ st, execInitMergeJoin fullJoin [some 3, some 3, some 1, none] [some 3, some 2, none] = .ok st ∧
      ∃ rows : List (Option (Option Nat) × Option (Option Nat)),
        rows.Perm [(some (some 3), some (some 3)), (some (some 3), some (some 3)),
          (some (some 1), none), (some none, none), (none, some (some 2)), (none, some none)] ∧
        ∃ n, ∀ fuel, n ≤ fuel → execMergeJoin fullJoin fuel st = some rows :=
  ⟨_, rfl, execMergeJoin_perm_relationalJoin fullJoin fullJoin_lawful
    [some 3, some 3, some 1, none] [some 3, some 2, none]
    (by unfold MergeJoin.SortedOuter; decide) (by unfold MergeJoin.SortedInner; decide) _ rfl⟩

end PgTuning.Executor
