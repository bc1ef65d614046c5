import Mathlib.Order.Bounds.Defs
import Mathlib.Data.Set.Basic
import PgTuning.Lib.Calls

/-!
# WITH RECURSIVE

`ExecRecursiveUnion` returns the rows of the non-recursive term, and then in rounds what the
recursive term makes of the rows that the round before has added. `UNION` (`distinct`, in the source
`numCols > 0`) keeps the rows in a hash table and drops those it has seen.
-/

namespace PgTuning.RecursiveUnion

open PgTuning.Lib List

structure RecursiveUnionState (Row : Type) where
  recursing : Bool := false
  intermediateEmpty : Bool := true
  workingTable : List Row := []
  intermediateTable : List Row := []
  hashtable : List Row := []
  /-- What the non-recursive plan has still to return. -/
  outerPlan : List Row
  /-- What the recursive plan has still to return, once it reads the working table. -/
  innerPlan : Option (List Row) := none

variable {Row : Type} [DecidableEq Row]

section

variable (distinct : Bool) (T : List Row → List Row) (B : List Row)

/-- Fetch rows until `LookupTupleHashEntry` finds a new one. -/
def fetchNew (hashtable : List Row) : List Row → Option (Row × List Row)
  | [] => none
  | slot :: rows =>
    if distinct ∧ slot ∈ hashtable then fetchNew hashtable rows else some (slot, rows)

def enter (slot : Row) (hashtable : List Row) : List Row :=
  if distinct then slot :: hashtable else hashtable

/-- The loop over the recursive term. -/
def execRecursiveTerm (node : RecursiveUnionState Row) : Option Row × RecursiveUnionState Row :=
  match fetchNew distinct node.hashtable (node.innerPlan.getD (T node.workingTable)) with
  | some (slot, rows) => (some slot, { node with
      innerPlan := some rows
      hashtable := enter distinct slot node.hashtable
      intermediateEmpty := false
      intermediateTable := node.intermediateTable ++ [slot] })
  | none =>
    if node.intermediateEmpty then (none, { node with innerPlan := some [] })
    else execRecursiveTerm { node with
      workingTable := node.intermediateTable
      intermediateTable := []
      intermediateEmpty := true
      innerPlan := none }
termination_by if node.intermediateEmpty then 0 else 1
decreasing_by simp [*]

def execRecursiveUnion (node : RecursiveUnionState Row) : Option Row × RecursiveUnionState Row :=
  if node.recursing then execRecursiveTerm distinct T node
  else match fetchNew distinct node.hashtable node.outerPlan with
    | some (slot, rows) => (some slot, { node with
        outerPlan := rows
        hashtable := enter distinct slot node.hashtable
        workingTable := node.workingTable ++ [slot] })
    | none => execRecursiveTerm distinct T { node with outerPlan := [], recursing := true }

/-! ## Rounds -/

/-- The rows that are new behind the rows `seen`. -/
def fresh : List Row → List Row → List Row
  | _, [] => []
  | seen, r :: rows =>
    if distinct ∧ r ∈ seen then fresh seen rows else r :: fresh (seen ++ [r]) rows

/-- All rows up to a round, and those of the round. -/
def round : Nat → List Row × List Row
  | 0 => (fresh distinct [] B, fresh distinct [] B)
  | n + 1 =>
    let new := fresh distinct (round n).1 (T (round n).2)
    ((round n).1 ++ new, new)

/-- The rows up to the last round that adds any. -/
def Complete (returned : List Row) : Prop :=
  ∃ n, returned = (round distinct T B n).1 ∧ (round distinct T B (n + 1)).2 = [] ∧
    ∀ k < n, (round distinct T B (k + 1)).2 ≠ []

/-- Between two calls in the non-recursive term. -/
structure AtStart (node : RecursiveUnionState Row) (returned : List Row) : Prop where
  recursing : ¬node.recursing
  table : distinct → ∀ r, r ∈ node.hashtable ↔ r ∈ returned
  working : node.workingTable = returned
  outer : fresh distinct [] B = returned ++ fresh distinct returned node.outerPlan
  intermediate : node.intermediateTable = []
  empty : node.intermediateEmpty
  inner : node.innerPlan = none

/-- Between two calls in round `n + 1`. -/
structure InRound (n : Nat) (node : RecursiveUnionState Row) (returned : List Row) : Prop where
  recursing : node.recursing
  table : distinct → ∀ r, r ∈ node.hashtable ↔ r ∈ returned
  working : node.workingTable = (round distinct T B n).2
  rounds : returned = (round distinct T B n).1 ++ node.intermediateTable
  inner : (round distinct T B (n + 1)).2 = node.intermediateTable ++
    fresh distinct returned (node.innerPlan.getD (T node.workingTable))
  empty : node.intermediateEmpty ↔ node.intermediateTable = []
  before : ∀ k < n, (round distinct T B (k + 1)).2 ≠ []

def Inv (node : RecursiveUnionState Row) (returned : List Row) : Prop :=
  AtStart distinct B node returned ∨ ∃ n, InRound distinct T B n node returned

/-- What a call leaves behind. -/
def Leaves (returned : List Row) : Option Row × RecursiveUnionState Row → Prop
  | (none, _) => Complete distinct T B returned
  | (some slot, node) => Inv distinct T B node (returned ++ [slot])

/-- The rows of the non-recursive term, and what the recursive term makes of rows of `X`. -/
def unionOf (X : Set Row) : Set Row := {r | r ∈ B ∨ ∃ xs, (∀ x ∈ xs, x ∈ X) ∧ r ∈ T xs}

end

variable {distinct : Bool} {T : List Row → List Row} {B seen rows table returned : List Row}
  {n : Nat} {node : RecursiveUnionState Row}

theorem fresh_eq (hTable : distinct → ∀ r, r ∈ table ↔ r ∈ seen) :
    fresh distinct seen rows = match fetchNew distinct table rows with
      | none => []
      | some (slot, rest) => slot :: fresh distinct (seen ++ [slot]) rest := by
  induction rows with
  | nil => rfl
  | cons r rows ih =>
    have hSame : distinct ∧ r ∈ seen ↔ distinct ∧ r ∈ table :=
      and_congr_right fun h => (hTable h r).symm
    simp only [fresh, fetchNew, hSame]
    split_ifs
    · exact ih
    · rfl

omit [DecidableEq Row] in
theorem mem_enter (hTable : distinct → ∀ r, r ∈ table ↔ r ∈ seen) (slot : Row) (h : distinct)
    (r : Row) : r ∈ enter distinct slot table ↔ r ∈ seen ++ [slot] := by
  rw [enter, if_pos h, mem_cons, hTable h, mem_append, mem_singleton, or_comm]

theorem InRound.step (h : InRound distinct T B n node returned) :
    Leaves distinct T B returned (execRecursiveTerm distinct T node) := by
  fun_induction execRecursiveTerm distinct T node generalizing n with
  | case1 node slot rows hFetch =>
    refine .inr ⟨n, h.recursing, mem_enter h.table slot, h.working, ?_, ?_, by simp, h.before⟩
    · rw [h.rounds, append_assoc]
    · rw [h.inner, fresh_eq h.table, hFetch, append_assoc]
      rfl
  | case2 node hFetch hEmpty =>
    have hInner := h.inner
    rw [fresh_eq h.table, hFetch, h.empty.mp hEmpty] at hInner
    have hReturned := h.rounds
    rw [h.empty.mp hEmpty, append_nil] at hReturned
    exact ⟨n, hReturned, hInner, h.before⟩
  | case3 node hFetch hEmpty ih =>
    have hInner := h.inner
    rw [fresh_eq h.table, hFetch, append_nil] at hInner
    have hAll : returned = (round distinct T B (n + 1)).1 := by
      rw [h.rounds, ← hInner]
      rfl
    refine ih ⟨h.recursing, h.table, hInner.symm, ?_, ?_, by simp, ?_⟩
    · rw [hAll, append_nil]
    · rw [hAll, ← hInner]
      rfl
    · intro k hk
      rcases Nat.lt_succ_iff_lt_or_eq.mp hk with hLt | rfl
      · exact h.before k hLt
      · rw [hInner]
        exact fun hNil => hEmpty (h.empty.mpr hNil)

theorem Inv.step (h : Inv distinct T B node returned) :
    Leaves distinct T B returned (execRecursiveUnion distinct T node) := by
  unfold execRecursiveUnion
  rcases h with h | ⟨n, h⟩
  · rw [if_neg h.recursing]
    cases hFetch : fetchNew distinct node.hashtable node.outerPlan with
    | some result =>
      obtain ⟨slot, rows⟩ := result
      refine .inl ⟨h.recursing, mem_enter h.table slot, ?_, ?_, h.intermediate, h.empty, h.inner⟩
      · rw [h.working]
      · rw [h.outer, fresh_eq h.table, hFetch, append_assoc]
        rfl
    | none =>
      have hBase : fresh distinct [] B = returned := by
        rw [h.outer, fresh_eq h.table, hFetch, append_nil]
      refine InRound.step (n := 0) ⟨rfl, h.table, h.working.trans hBase.symm, ?_, ?_, ?_, nofun⟩
      · rw [h.intermediate, round, hBase, append_nil]
      · simp only [round, hBase, h.intermediate, h.inner, h.working, nil_append, Option.getD_none]
      · simp [h.empty, h.intermediate]
  · rw [if_pos h.recursing]
    exact h.step

theorem complete_of_inv (hRun : Returns (execRecursiveUnion distinct T) node rows)
    (h : Inv distinct T B node returned) : Complete distinct T B (returned ++ rows) := by
  induction hRun generalizing returned with
  | null hCall =>
    have hStep := h.step
    rw [hCall] at hStep
    rw [append_nil]
    exact hStep
  | row hCall _ ih =>
    have hStep := h.step
    rw [hCall] at hStep
    rw [append_cons]
    exact ih hStep

theorem complete_of_returns (hRun : Returns (execRecursiveUnion distinct T) { outerPlan := B } rows) :
    Complete distinct T B rows :=
  complete_of_inv hRun (show Inv _ T B _ [] from .inl ⟨by simp, by simp, rfl, rfl, rfl, rfl, rfl⟩)

/-! ## The rows of all rounds -/

theorem fresh_all (seen rows : List Row) : fresh false seen rows = rows := by
  induction rows generalizing seen with
  | nil => rfl
  | cons r rows ih => simp [fresh, ih]

theorem round_all (B : List Row) (n : Nat) : round false T B n =
    ((range (n + 1)).flatMap fun k => T^[k] B, T^[n] B) := by
  induction n with
  | zero => simp [round, fresh_all]
  | succ n ih =>
    rw [round, ih, fresh_all, range_succ (n := n + 1)]
    simp [Function.iterate_succ_apply']

theorem mem_fresh {r : Row} : r ∈ seen ++ fresh true seen rows ↔ r ∈ seen ∨ r ∈ rows := by
  induction rows generalizing seen with
  | nil => simp [fresh]
  | cons s rows ih =>
    unfold fresh
    split_ifs with hSeen
    · rw [ih]
      grind
    · rw [append_cons]
      grind

theorem nodup_fresh (h : seen.Nodup) : (seen ++ fresh true seen rows).Nodup := by
  induction rows generalizing seen with
  | nil => simpa [fresh]
  | cons s rows ih =>
    unfold fresh
    split_ifs with hSeen
    · exact ih h
    · rw [append_cons]
      grind

section

variable (hT : ∀ xs ys r, r ∈ T (xs ++ ys) ↔ r ∈ T xs ∨ r ∈ T ys)
include hT

omit [DecidableEq Row] in
theorem mem_term {r : Row} {xs : List Row} : r ∈ T xs ↔ r ∈ T [] ∨ ∃ x ∈ xs, r ∈ T [x] := by
  induction xs with
  | nil => simp
  | cons x xs ih =>
    rw [← singleton_append, hT]
    grind

/-- By induction on the rounds: only the rows of the last one are still to be handed to the
recursive term. -/
theorem round_spec (n : Nat) : let (all, new) := round true T B n
    all.Nodup ∧ (∀ r ∈ B, r ∈ all) ∧ (∀ r ∈ new, r ∈ all) ∧
    (∀ X, unionOf T B X ⊆ X → ∀ r ∈ all, r ∈ X) ∧ ∀ x ∈ all, x ∈ new ∨ ∀ r ∈ T [x], r ∈ all := by
  have hBase (r : Row) : r ∈ fresh true [] B ↔ r ∈ B := by
    rw [← nil_append (fresh ..), mem_fresh]
    simp
  induction n with
  | zero =>
    refine ⟨nodup_fresh nodup_nil, fun r => (hBase r).mpr, fun _ => id, ?_, fun x => .inl⟩
    intro X hX r hr
    exact hX (.inl ((hBase r).mp hr))
  | succ n ih =>
    obtain ⟨hNodup, hB, hLast, hLeast, hDone⟩ := ih
    refine ⟨nodup_fresh hNodup, ?_, ?_, ?_, ?_⟩
    · exact fun r hr => mem_append_left _ (hB r hr)
    · exact fun r => mem_append_right _
    · intro X hX r hr
      rcases mem_fresh.mp hr with hOld | hNew
      · exact hLeast X hX r hOld
      · exact hX (.inr ⟨_, fun x hx => hLeast X hX x (hLast x hx), hNew⟩)
    · intro x hx
      rcases mem_append.mp hx with hOld | hNew
      · right
        intro r hr
        rcases hDone x hOld with hLastRound | hEarlier
        · exact mem_fresh.mpr (.inr ((mem_term hT).mpr (.inr ⟨x, hLastRound, hr⟩)))
        · exact mem_append_left _ (hEarlier r hr)
      · exact .inl hNew

theorem Complete.isLeast (h : Complete true T B rows) :
    rows.Nodup ∧ IsLeast {X | X = unionOf T B X} {r | r ∈ rows} := by
  obtain ⟨n, rfl, hEnd, -⟩ := h
  have hEnd : fresh true (round true T B n).1 (T (round true T B n).2) = [] := hEnd
  obtain ⟨hNodup, hB, -, hLeast, hDone⟩ := round_spec hT (n + 1)
  rw [hEnd, append_nil] at hNodup hB hLeast hDone
  have hLast {r : Row} (hr : r ∈ T (round true T B n).2) : r ∈ (round true T B n).1 := by
    rw [← append_nil (Prod.fst _), ← hEnd]
    exact mem_fresh.mpr (.inr hr)
  have hClosed : unionOf T B {r | r ∈ (round true T B n).1} ⊆ {r | r ∈ (round true T B n).1} := by
    rintro r (hr | ⟨xs, hxs, hr⟩)
    · exact hB r hr
    · rcases (mem_term hT).mp hr with hr | ⟨x, hx, hr⟩
      · exact hLast ((mem_term hT).mpr (.inl hr))
      · rcases hDone x (hxs x hx) with hNone | hAll
        · cases hNone
        · exact hAll r hr
  refine ⟨hNodup, ?_, ?_⟩
  · refine Set.Subset.antisymm (hLeast _ ?_) hClosed
    rintro r (hr | ⟨xs, hxs, hr⟩)
    · exact .inl hr
    · exact .inr ⟨xs, fun x hx => hClosed (hxs x hx), hr⟩
  · exact fun X hX => hLeast X hX.ge

end

/-- **Recursive union**: once the calls reach `NULL`, `UNION` has returned each row of the least
fixpoint once, if the recursive term distributes over unions of rows, and `UNION ALL` the rows of
all steps up to the first empty one. -/
theorem recursiveUnion_rows (T : List Row → List Row) (B : List Row) :
    ((∀ xs ys r, r ∈ T (xs ++ ys) ↔ r ∈ T xs ∨ r ∈ T ys) →
      ∀ rows, Returns (execRecursiveUnion true T) { outerPlan := B } rows →
        rows.Nodup ∧ IsLeast {X | X = unionOf T B X} {r | r ∈ rows}) ∧
    ∀ rows, Returns (execRecursiveUnion false T) { outerPlan := B } rows →
      ∃ n, rows = (range (n + 1)).flatMap (fun k => T^[k] B) ∧ T^[n + 1] B = [] ∧
        ∀ k < n, T^[k + 1] B ≠ [] := by
  refine ⟨fun hT rows hRun => (complete_of_returns hRun).isLeast hT, fun rows hRun => ?_⟩
  obtain ⟨n, hRows, hEnd, hBefore⟩ := complete_of_returns hRun
  simp only [round_all] at hRows hEnd hBefore
  exact ⟨n, hRows, hEnd, hBefore⟩

/-- A recursive term that counts to two. -/
def countToTwo (xs : List Nat) : List Nat := (xs.filter (· < 2)).map (· + 1)

theorem recursiveUnion_rows_countToTwo :
    ([0, 1, 2].Nodup ∧ IsLeast {X | X = unionOf countToTwo [0, 0] X} {r | r ∈ [0, 1, 2]}) ∧
      ∃ n, [0, 0, 1, 1, 2, 2] = (range (n + 1)).flatMap (fun k => countToTwo^[k] [0, 0]) ∧
        countToTwo^[n + 1] [0, 0] = [] ∧ ∀ k < n, countToTwo^[k + 1] [0, 0] ≠ [] := by
  have hUnion : Returns (execRecursiveUnion true countToTwo) { outerPlan := [0, 0] } [0, 1, 2] := by
    refine .row rfl ?_
    iterate 2
      refine .row (by simp [execRecursiveUnion, execRecursiveTerm]; rfl) ?_
    exact .null (by simp [execRecursiveUnion, execRecursiveTerm]; rfl)
  have hAll : Returns (execRecursiveUnion false countToTwo) { outerPlan := [0, 0] }
      [0, 0, 1, 1, 2, 2] := by
    refine .row rfl (.row rfl ?_)
    iterate 4
      refine .row (by simp [execRecursiveUnion, execRecursiveTerm]; rfl) ?_
    exact .null (by simp [execRecursiveUnion, execRecursiveTerm]; rfl)
  have h := recursiveUnion_rows countToTwo [0, 0]
  exact ⟨h.1 (by simp [countToTwo]) _ hUnion, h.2 _ hAll⟩

end PgTuning.RecursiveUnion
