import Mathlib.Data.List.Induction
import PgTuning.Lib.Calls

/-!
# INTERSECT and EXCEPT

`ExecSetOp` reads the rows of both inputs, each with a flag that says which input it is from. It
counts the rows of each group of equal ones, on sorted input or in a hash table, and returns the
row of a group as often as the counts demand. All columns but the flag are grouping columns.
-/

namespace PgTuning.SetOpNode

open PgTuning.Lib List

inductive SetOpCmd where
  | intersect
  | intersectAll
  | except
  | exceptAll

structure PerGroup where
  numLeft : Nat := 0
  numRight : Nat := 0

abbrev Groups (Row : Type) := List (Row × PerGroup)

structure SetOp (Row : Type) where
  cmd : SetOpCmd
  hashed : Bool
  firstFlag : Bool
  /-- The order in which a scan of the hash table finds the entries. -/
  scan : Groups Row → Groups Row
  scan_perm : ∀ table, (scan table).Perm table

structure SetOpState (Row : Type) where
  numOutput : Nat := 0
  setopDone : Bool := false
  resultTupleSlot : Option Row := none
  grpFirstTuple : Option (Row × Bool) := none
  tableFilled : Bool := false
  /-- What the scan of the hash table has still to return. -/
  hashiter : Groups Row := []
  outerPlan : List (Row × Bool)

def advanceCounts (pergroup : PerGroup) (flag : Bool) : PerGroup :=
  if flag then { pergroup with numRight := pergroup.numRight + 1 }
  else { pergroup with numLeft := pergroup.numLeft + 1 }

def setOutputCount (cmd : SetOpCmd) : PerGroup → Nat
  | ⟨numLeft, numRight⟩ => match cmd with
    | .intersect => if numLeft > 0 ∧ numRight > 0 then 1 else 0
    | .intersectAll => if numLeft < numRight then numLeft else numRight
    | .except => if numLeft > 0 ∧ numRight = 0 then 1 else 0
    | .exceptAll => if numLeft < numRight then 0 else numLeft - numRight

variable {Row : Type}

/-- The first copy of the result row is returned. -/
def SetOpState.emit (node : SetOpState Row) (slot : Row) (numOutput : Nat) :
    Option Row × SetOpState Row :=
  (some slot, { node with numOutput := numOutput - 1, resultTupleSlot := some slot })

/-- The rows of groups, each as often as its counts demand. -/
def copies (plan : SetOp Row) (groups : Groups Row) : List Row :=
  groups.flatMap fun entry => replicate (setOutputCount plan.cmd entry.2) entry.1

section

variable [DecidableEq Row] (plan : SetOp Row)

/-- The loops of `setop_retrieve_direct`, with the row of a group and its counts so far. -/
def scanGroups (node : SetOpState Row) (first : Row) (pergroup : PerGroup) :
    List (Row × Bool) → Option Row × SetOpState Row
  | [] =>
    let node := { node with setopDone := true, grpFirstTuple := none, outerPlan := [] }
    if setOutputCount plan.cmd pergroup > 0 then
      node.emit first (setOutputCount plan.cmd pergroup)
    else (none, node)
  | slot :: outer =>
    if first = slot.1 then scanGroups node first (advanceCounts pergroup slot.2) outer
    else if setOutputCount plan.cmd pergroup > 0 then
      { node with grpFirstTuple := some slot, outerPlan := outer }.emit first
        (setOutputCount plan.cmd pergroup)
    else scanGroups node slot.1 (advanceCounts {} slot.2) outer

def setopRetrieveDirect (node : SetOpState Row) : Option Row × SetOpState Row :=
  match node.grpFirstTuple.toList ++ node.outerPlan with
  | [] => (none, { node with setopDone := true })
  | slot :: outer => scanGroups plan node slot.1 (advanceCounts {} slot.2) outer

/-- `LookupTupleHashEntry` makes an entry for a row of the first input only. -/
def fillStep (table : Groups Row) (slot : Row × Bool) : Groups Row :=
  (if slot.2 = plan.firstFlag ∧ slot.1 ∉ table.map Prod.fst then (slot.1, {}) :: table
    else table).map fun entry =>
      if entry.1 = slot.1 then (entry.1, advanceCounts entry.2 slot.2) else entry

def setopFillHashTable (node : SetOpState Row) : SetOpState Row :=
  { node with
    tableFilled := true
    outerPlan := []
    hashiter := plan.scan (node.outerPlan.foldl (fillStep plan) []) }

def setopRetrieveHashTable (node : SetOpState Row) : Groups Row → Option Row × SetOpState Row
  | [] => (none, { node with setopDone := true })
  | (firstTuple, pergroup) :: hashiter =>
    if setOutputCount plan.cmd pergroup > 0 then
      { node with hashiter := hashiter }.emit firstTuple (setOutputCount plan.cmd pergroup)
    else setopRetrieveHashTable node hashiter

def execSetOp (node : SetOpState Row) : Option Row × SetOpState Row :=
  if node.numOutput > 0 then
    (node.resultTupleSlot, { node with numOutput := node.numOutput - 1 })
  else if node.setopDone then (none, node)
  else if plan.hashed then
    let node := if node.tableFilled then node else setopFillHashTable plan node
    setopRetrieveHashTable plan node node.hashiter
  else setopRetrieveDirect plan node

/-- The groups of sorted input, with their counts. -/
def groupsFrom (first : Row) (pergroup : PerGroup) : List (Row × Bool) → Groups Row
  | [] => [(first, pergroup)]
  | slot :: outer =>
    if first = slot.1 then groupsFrom first (advanceCounts pergroup slot.2) outer
    else (first, pergroup) :: groupsFrom slot.1 (advanceCounts {} slot.2) outer

/-- The counts of a row, on top of others. -/
def tally (pergroup : PerGroup) (input : List (Row × Bool)) (r : Row) : PerGroup where
  numLeft := pergroup.numLeft + input.count (r, false)
  numRight := pergroup.numRight + input.count (r, true)

/-- The answer of SQL for a row that is `l` times on the left and `r` times on the right. -/
def prescribed (l r : Nat) : SetOpCmd → Nat
  | .intersect => if 0 < l ∧ 0 < r then 1 else 0
  | .intersectAll => min l r
  | .except => if 0 < l ∧ r = 0 then 1 else 0
  | .exceptAll => l - r

/-- What the planner guarantees: equal rows are adjacent, or the first input is complete before the
second, and is the left one but for `INTERSECT`. -/
def Arranged (input : List (Row × Bool)) : Prop :=
  if plan.hashed then (plan.firstFlag → plan.cmd = .intersect ∨ plan.cmd = .intersectAll) ∧
    input.Pairwise fun a b => b.2 = plan.firstFlag → a.2 = plan.firstFlag
  else ∀ a b, [a, b, a] <+ input.map Prod.fst → a = b

end

variable {plan : SetOp Row} {node : SetOpState Row} {slot r : Row} {pergroup : PerGroup}
  {groups : Groups Row} {input : List (Row × Bool)}

theorem setOutputCount_eq (cmd : SetOpCmd) (pergroup : PerGroup) :
    setOutputCount cmd pergroup = prescribed pergroup.numLeft pergroup.numRight cmd := by
  cases cmd <;> simp only [setOutputCount, prescribed] <;> grind

theorem setOutputCount_none {cmd : SetOpCmd} : setOutputCount cmd {} = 0 := by
  cases cmd <;> rfl

theorem copies_cons : copies plan ((slot, pergroup) :: groups) =
    replicate (setOutputCount plan.cmd pergroup) slot ++ copies plan groups := rfl

theorem copies_skip (hCount : ¬setOutputCount plan.cmd pergroup > 0) :
    copies plan ((slot, pergroup) :: groups) = copies plan groups := by
  rw [copies_cons, Nat.eq_zero_of_not_pos hCount, replicate_zero, nil_append]

variable [DecidableEq Row]

/-- The copies of a row are returned one by one, and then the rest. -/
theorem emit_leads (hCount : setOutputCount plan.cmd pergroup > 0)
    (hRest : Leads (execSetOp plan) (copies plan groups)
      (execSetOp plan { node with numOutput := 0, resultTupleSlot := some slot })) :
    Leads (execSetOp plan) (copies plan ((slot, pergroup) :: groups))
      (node.emit slot (setOutputCount plan.cmd pergroup)) := by
  obtain ⟨n, hn⟩ := Nat.exists_eq_succ_of_ne_zero (Nat.ne_of_gt hCount)
  rw [copies_cons, hn]
  refine ⟨replicate n slot ++ copies plan groups, rfl, ?_⟩
  clear hn
  induction n with
  | zero => exact hRest.returns
  | succ n ih => exact .row (if_pos n.succ_pos) ih

theorem scanGroups_leads (hSorted : ¬plan.hashed) (hDone : ¬node.setopDone) (first : Row)
    (outer : List (Row × Bool)) : Leads (execSetOp plan)
      (copies plan (groupsFrom first pergroup outer)) (scanGroups plan node first pergroup outer) := by
  induction outer generalizing node first pergroup with
  | nil =>
    rw [scanGroups]
    split_ifs with hCount
    · exact emit_leads hCount rfl
    · exact copies_skip hCount
  | cons next outer ih =>
    rw [groupsFrom, scanGroups]
    split_ifs with hSame hCount
    · exact ih hDone first
    · apply emit_leads hCount
      rw [execSetOp, if_neg hDone, if_neg hSorted]
      exact ih (by exact hDone) next.1
    · rw [copies_skip hCount]
      exact ih hDone next.1

theorem setopRetrieveHashTable_leads (hHashed : plan.hashed) (hDone : ¬node.setopDone)
    (hFilled : node.tableFilled) (iter : Groups Row) :
    Leads (execSetOp plan) (copies plan iter) (setopRetrieveHashTable plan node iter) := by
  induction iter generalizing node with
  | nil => rfl
  | cons entry iter ih =>
    rw [setopRetrieveHashTable]
    split_ifs with hCount
    · apply emit_leads hCount
      rw [execSetOp, if_neg hDone, if_pos hHashed, if_pos hFilled]
      exact ih (by exact hDone) (by exact hFilled)
    · rw [copies_skip hCount]
      exact ih hDone hFilled

/-! ## Counting -/

theorem tally_cons (x : Row × Bool) : tally pergroup (x :: input) r =
    tally (if x.1 = r then advanceCounts pergroup x.2 else pergroup) input r := by
  obtain ⟨x, flag⟩ := x
  cases flag <;> by_cases hx : x = r <;> simp [tally, advanceCounts, hx] <;> omega

theorem tally_concat (x : Row × Bool) : tally {} (input ++ [x]) r =
    if x.1 = r then advanceCounts (tally {} input r) x.2 else tally {} input r := by
  obtain ⟨x, flag⟩ := x
  cases flag <;> by_cases hx : x = r <;> simp [tally, advanceCounts, hx]

theorem tally_of_notMem (h : r ∉ input.map Prod.fst) : tally pergroup input r = pergroup := by
  induction input with
  | nil => rfl
  | cons x input ih =>
    rw [map_cons, mem_cons, not_or] at h
    rw [tally_cons, if_neg (Ne.symm h.1), ih h.2]

theorem count_copies_cons : (copies plan ((slot, pergroup) :: groups)).count r =
    (if slot = r then setOutputCount plan.cmd pergroup else 0) + (copies plan groups).count r := by
  simp [copies_cons, count_replicate]

theorem count_groupsFrom (first : Row) (pergroup : PerGroup) (outer : List (Row × Bool))
    (hSorted : ∀ a b, [a, b, a] <+ first :: outer.map Prod.fst → a = b) :
    (copies plan (groupsFrom first pergroup outer)).count r =
      setOutputCount plan.cmd (tally (if first = r then pergroup else {}) outer r) := by
  induction outer generalizing first pergroup with
  | nil =>
    rw [groupsFrom, count_copies_cons, tally_of_notMem not_mem_nil, apply_ite (setOutputCount plan.cmd),
      setOutputCount_none]
    rfl
  | cons next outer ih =>
    rw [groupsFrom, tally_cons]
    by_cases hSame : first = next.1
    · rw [if_pos hSame, ih first _ fun a b hSub => hSorted a b
        (hSub.trans (.cons_cons _ (sublist_cons_self ..))), ← hSame]
      split_ifs <;> rfl
    · rw [if_neg hSame, count_copies_cons,
        ih next.1 _ fun a b hSub => hSorted a b (hSub.cons first)]
      by_cases hr : first = r
      · subst hr
        have hNone : first ∉ outer.map Prod.fst := fun hMem => hSame
          (hSorted first next.1 (.cons_cons _ (.cons_cons _ (singleton_sublist.mpr hMem))))
        simp only [tally_of_notMem hNone, if_pos, if_neg (Ne.symm hSame), setOutputCount_none,
          Nat.add_zero]
      · rw [if_neg hr, if_neg hr, Nat.zero_add]

/-- One entry for each group of the first input, with the counts of both. -/
theorem fill_spec
    (hOrder : input.Pairwise fun a b => b.2 = plan.firstFlag → a.2 = plan.firstFlag) :
    ∃ firsts : List Row, firsts.Nodup ∧ (∀ r, r ∈ firsts ↔ (r, plan.firstFlag) ∈ input) ∧
      input.foldl (fillStep plan) [] = firsts.map fun first => (first, tally {} input first) := by
  induction input using reverseRecOn with
  | nil => exact ⟨[], nodup_nil, by simp, rfl⟩
  | append_singleton input slot ih =>
    obtain ⟨hBefore, -, hFirst⟩ := pairwise_append.mp hOrder
    obtain ⟨firsts, hNodup, hKeys, hFill⟩ := ih hBefore
    simp only [foldl_append, hFill, foldl_cons, foldl_nil, fillStep, tally_concat, map_map,
      Function.comp_def, map_id']
    by_cases hNew : slot.2 = plan.firstFlag ∧ slot.1 ∉ firsts
    · refine ⟨slot.1 :: firsts, nodup_cons.mpr ⟨hNew.2, hNodup⟩, by grind, ?_⟩
      have hNone : tally {} input slot.1 = {} := by
        apply tally_of_notMem
        grind
      rw [if_pos hNew, map_cons, map_cons, map_map, if_pos rfl, if_pos rfl, hNone]
      congr 1
      apply map_congr_left
      grind
    · refine ⟨firsts, hNodup, by grind, ?_⟩
      rw [if_neg hNew, map_map]
      apply map_congr_left
      grind

theorem count_firsts (counts : Row → PerGroup) {firsts : List Row} (hNodup : firsts.Nodup) :
    (copies plan (firsts.map fun first => (first, counts first))).count r =
      if r ∈ firsts then setOutputCount plan.cmd (counts r) else 0 := by
  induction firsts with
  | nil => rfl
  | cons first firsts ih =>
    rw [nodup_cons] at hNodup
    rw [map_cons, count_copies_cons]
    grind

/-- A group that only the second input has is not returned. -/
theorem setOutputCount_unseen
    (hCmd : plan.firstFlag → plan.cmd = .intersect ∨ plan.cmd = .intersectAll)
    (h : (r, plan.firstFlag) ∉ input) : setOutputCount plan.cmd (tally {} input r) = 0 := by
  rw [← count_eq_zero] at h
  rw [setOutputCount_eq]
  cases hFirst : plan.firstFlag with
  | false => cases plan.cmd <;> simp_all [prescribed, tally]
  | true => rcases hCmd hFirst with hCmd | hCmd <;> simp_all [prescribed, tally]

/-- **INTERSECT and EXCEPT**: sorted or hashed, each row is returned as often as SQL prescribes. -/
theorem execSetOp_counts (plan : SetOp Row) (input : List (Row × Bool)) (h : Arranged plan input) :
    ∃ rows, Returns (execSetOp plan) { outerPlan := input } rows ∧ ∀ r, rows.count r =
      prescribed (input.count (r, false)) (input.count (r, true)) plan.cmd := by
  suffices ∃ rows, Leads (execSetOp plan) rows (execSetOp plan { outerPlan := input }) ∧
      ∀ r, rows.count r = setOutputCount plan.cmd (tally {} input r) by
    obtain ⟨rows, hLeads, hCount⟩ := this
    refine ⟨rows, hLeads.returns, fun r => ?_⟩
    rw [hCount, setOutputCount_eq, tally, Nat.zero_add, Nat.zero_add]
  rw [execSetOp]
  unfold Arranged at h
  by_cases hHashed : plan.hashed
  · rw [if_pos hHashed] at h ⊢
    obtain ⟨hCmd, hOrder⟩ := h
    obtain ⟨firsts, hNodup, hKeys, hFill⟩ := fill_spec hOrder
    refine ⟨_, setopRetrieveHashTable_leads hHashed Bool.false_ne_true rfl _, fun r => ?_⟩
    refine (((plan.scan_perm _).flatMap_right _).count_eq r).trans ?_
    refine (congrArg (fun table => (copies plan table).count r) hFill).trans ?_
    rw [count_firsts _ hNodup]
    split_ifs with hSeen
    · rfl
    · exact (setOutputCount_unseen hCmd (mt (hKeys r).mpr hSeen)).symm
  · rw [if_neg hHashed] at h ⊢
    cases input with
    | nil => exact ⟨[], rfl, fun _ => setOutputCount_none.symm⟩
    | cons slot outer =>
      refine ⟨_, scanGroups_leads hHashed Bool.false_ne_true slot.1 outer, fun r => ?_⟩
      rw [count_groupsFrom slot.1 _ outer h, tally_cons]

/-- `EXCEPT ALL` by sorting. -/
def exceptPlan : SetOp Nat := ⟨.exceptAll, false, false, id, .refl⟩

/-- Three rows `0` on the left and one on the right, then one row `1` on each side. -/
def exceptInput : List (Nat × Bool) :=
  [(0, false), (0, false), (0, true), (0, false), (1, true), (1, false)]

theorem execSetOp_counts_exceptAll : ∃ rows,
    Returns (execSetOp exceptPlan) { outerPlan := exceptInput } rows ∧
      rows.count 0 = 2 ∧ rows.count 1 = 0 := by
  have hSorted : (exceptInput.map Prod.fst).Pairwise (· ≤ ·) := by decide
  have hArranged : ∀ a b, [a, b, a] <+ exceptInput.map Prod.fst → a = b := by
    intro a b hSub
    have hAround := hSorted.sublist hSub
    simp only [pairwise_cons, mem_cons] at hAround
    exact Nat.le_antisymm (hAround.1 b (.inl rfl)) (hAround.2.1 a (.inl rfl))
  obtain ⟨rows, hRows, hCount⟩ := execSetOp_counts exceptPlan exceptInput hArranged
  exact ⟨rows, hRows, hCount 0, hCount 1⟩

end PgTuning.SetOpNode
