import PgTuning.Backend.CopyObject
import PgTuning.Backend.PlanCat

/-!
# Planning a statement

A table in the range table of a query level is looked up by `build_simple_rel` with the flag of
`root->parse`, the query that level is planned for. A query inside another one is either pulled up,
so that its tables are planned under the flag of the level above, or planned on its own, under its
own flag. `Plans` allows both, and so covers every run of the planner.

Views and inlined functions bring in queries analysed elsewhere. Rules and function bodies are
always analysed without the flag (`StoredQuery`).
-/

namespace PgTuning.Backend

open PgTuning.Lib.Outcome List

/-! ## The levels of a query -/

/-- A query kept in `pg_rewrite` or made from the text of an SQL function. -/
structure StoredQuery where
  env : Analyzer
  stmt : PreparableStmt
  query : Query
  analysed : parseAnalyze env (.preparable stmt) false = .ok query

/-- What the planner brings in from outside the statement. -/
structure Rules where
  view : Oid → Option StoredQuery
  functionBodies : List StoredQuery
  inheritors : Oid → List Oid

/-- `sub` is planned as a part of `q`. -/
inductive Within (rules : Rules) (q : Query) : Query → Prop where
  | subquery {sub : Query} {aliasname : String}
      (h : .subquery sub aliasname ∈ q.rtable) : Within rules q sub
  | subLink {sub : Query} (h : sub ∈ q.subLinks) : Within rules q sub
  | functionLink {sub : Query} {subLinks : List Query}
      (h : .function subLinks ∈ q.rtable) (hSub : sub ∈ subLinks) :
      Within rules q sub
  | valuesLink {sub : Query} {subLinks : List Query}
      (h : .values subLinks ∈ q.rtable) (hSub : sub ∈ subLinks) :
      Within rules q sub
  | cte {sub : Query} {ctename : String} (h : .mk ctename sub ∈ q.cteList) :
      Within rules q sub
  | explain {sub : Query} {options : List String} {hypothetical : Bool}
      (h : q.utilityStmt = .explain sub options hypothetical) : Within rules q sub
  | view {relid : Oid} {inh : Bool} {aliasname : String} {stored : StoredQuery}
      (h : .relation relid inh aliasname ∈ q.rtable)
      (hView : rules.view relid = some stored) : Within rules q stored.query
  | inlined {subLinks : List Query} {stored : StoredQuery}
      (h : .function subLinks ∈ q.rtable) (hBody : stored ∈ rules.functionBodies) :
      Within rules q stored.query

structure PlannedRel where
  relid : Oid
  inhparent : Bool
  hypothetical : Bool
deriving DecidableEq, Repr

/-- Planning the query `q` under a level with flag `root` may look up `r`. -/
inductive Plans (rules : Rules) : Bool → Query → PlannedRel → Prop where
  | base {root : Bool} {q : Query} {relid : Oid} {inh inhparent : Bool}
      {aliasname : String} (h : .relation relid inh aliasname ∈ q.rtable)
      (hInh : inhparent = true → inh = true) :
      Plans rules root q ⟨relid, inhparent, root⟩
  | member {root : Bool} {q : Query} {relid child : Oid} {aliasname : String}
      (h : .relation relid true aliasname ∈ q.rtable)
      (hChild : child ∈ rules.inheritors relid) :
      Plans rules root q ⟨child, false, root⟩
  | pulledUp {root : Bool} {q sub : Query} {r : PlannedRel}
      (h : Within rules q sub) (hr : Plans rules root sub r) : Plans rules root q r
  | planned {root : Bool} {q sub : Query} {r : PlannedRel}
      (h : Within rules q sub) (hr : Plans rules sub.hypothetical sub r) :
      Plans rules root q r

def PlannedRel.info (r : PlannedRel) (env : PlannerEnv) (cat : Catalog)
    (transientPlan : Bool) : Except Error RelationInfo :=
  getRelationInfo env cat transientPlan r.relid r.inhparent r.hypothetical

/-! ## Ordinary statements -/

variable {q : Query} {rules : Rules} {r : PlannedRel}

theorem plain_of_subquery {rtable : List RangeTblEntry} {sub : Query} {aliasname : String}
    (h : PlainRtable rtable) (hMem : .subquery sub aliasname ∈ rtable) : sub.Plain :=
  forall_iff_forall_mem.mp h _ hMem

theorem Query.Plain.hypothetical (h : q.Plain) : q.hypothetical = false := by
  cases q
  exact (plain_mk.mp h).1

theorem StoredQuery.plain (stored : StoredQuery) : stored.query.Plain :=
  (transformPreparable_plain stored.env topState stored.stmt).ok _ stored.analysed

theorem Within.plain {q sub : Query} (h : Within rules q sub) (hq : q.Plain) : sub.Plain := by
  cases q with
  | mk commandType hypothetical utilityStmt hasModifyingCTE intoClause cteList rtable
      subLinks setOperations rowMarks =>
      obtain ⟨-, hUtility, hCtes, hRtable, hLinks⟩ := plain_mk.mp hq
      cases h with
      | subquery h => exact plain_of_subquery hRtable h
      | subLink h => exact forall_iff_forall_mem.mp hLinks _ h
      | functionLink h hSub | valuesLink h hSub =>
        have hFlags := forall_iff_forall_mem.mp hRtable _ h
        exact forall_iff_forall_mem.mp ((allFalse_queriesFlags _).mp hFlags) _ hSub
      | cte h => exact forall_iff_forall_mem.mp hCtes _ h
      | explain h =>
        have h : utilityStmt = .explain sub _ _ := h
        rw [h, UtilityStmt.flags, AllFalse, forall_cons] at hUtility
        exact hUtility.2
      | view h hView => exact StoredQuery.plain _
      | inlined h hBody => exact StoredQuery.plain _

theorem Plans.unflagged {root : Bool} (h : Plans rules root q r)
    (hRoot : root = false) (hq : q.Plain) : r.hypothetical = false := by
  induction h with
  | base h hInh => exact hRoot
  | member h hChild => exact hRoot
  | pulledUp h hr ih => exact ih hRoot (h.plain hq)
  | planned h hr ih => exact ih (h.plain hq).hypothetical (h.plain hq)

/-- The statement is not an `EXPLAIN HYPOTHETICAL`. -/
def RawStmt.Ordinary : RawStmt → Prop
  | .explain stmt => stmt.hypothetical = false
  | _ => True

/-- The query levels of an ordinary statement are plain; the definition hung under
a utility statement is not planned. -/
theorem plans_ordinary {env : Analyzer} {t : RawStmt}
    (ht : t.Ordinary) (hq : parseAnalyze env t false = .ok q)
    (hr : Plans rules q.hypothetical q r) : r.hypothetical = false := by
  have hUtility : ∀ stmt, ¬ Plans rules false (utilityQuery (.raw stmt)) r := by
    intro stmt hPlans
    have hNone : ∀ sub, ¬ Within rules (utilityQuery (.raw stmt)) sub := by
      intro sub hSub
      cases hSub <;> contradiction
    cases hPlans with
    | base h hInh => cases h
    | member h hChild => cases h
    | pulledUp h hr => exact hNone _ h
    | planned h hr => exact hNone _ h
  cases t with
  | preparable stmt =>
    have hPlain := (transformPreparable_plain env topState stmt).ok q hq
    exact hr.unflagged hPlain.hypothetical hPlain
  | declareCursor stmt =>
    have hPlain := (transformDeclareCursorStmt_plain env topState stmt).ok q hq
    exact hr.unflagged hPlain.hypothetical hPlain
  | explain stmt =>
    have hFlag : stmt.hypothetical = false := ht
    obtain ⟨query, hQuery, hMade⟩ := bind_eq_ok.mp hq
    rw [hFlag] at hQuery
    have hPlain := (transformExplainable_plain env topState stmt.query).ok query hQuery
    cases hMade
    refine hr.unflagged hFlag (plain_mk.mpr ⟨hFlag, ?_, by simp, by simp, by simp⟩)
    rw [UtilityStmt.flags, AllFalse, forall_cons]
    exact ⟨hFlag, hPlain⟩
  | index stmt =>
    cases hq
    exact absurd hr (hUtility _)
  | utility tag indexes statements =>
    cases hq
    exact absurd hr (hUtility _)

/-- **Non-interference.** Whatever catalog an ordinary statement is planned against, and at whatever
query level a table is looked up, the planner learns exactly what it would learn if no hypothetical
index existed. -/
theorem plan_ignores_hypothetical (env : Analyzer) (rules : Rules) {t : RawStmt}
    {q : Query} {r : PlannedRel} (ht : t.Ordinary)
    (hq : parseAnalyze env t false = .ok q) (hr : Plans rules q.hypothetical q r)
    (planner : PlannerEnv) (cat : Catalog) (transientPlan : Bool) :
    r.info planner cat transientPlan = r.info planner cat.withoutHypothetical transientPlan := by
  unfold PlannedRel.info
  rw [plans_ordinary ht hq hr, getRelationInfo_withoutHypothetical]

def keyIndex (oid : Oid) (hypothetical : Bool) : PgIndex where
  indexrelid := oid
  relname := "i"
  indrelid := 16384
  relam := .btree
  columns := [⟨1, 0, 1976, .int4, true, -1, 4, false, false⟩]
  indexprs := []
  indpred := []
  indisunique := false
  indisprimary := false
  indisexclusion := false
  indimmediate := true
  indisclustered := false
  indisvalid := true
  indcheckxmin := false
  indisready := true
  indishypothetical := hypothetical
  xmin := 700

def indexedTable : Catalog where
  pgClass := PgTuning.Lib.Table.empty.insert ⟨16384, "t", true, false, true⟩
  pgIndex := (PgTuning.Lib.Table.empty.insert (keyIndex 16390 false)).insert
    (keyIndex 16391 true)
  pgConstraint := PgTuning.Lib.Table.empty

def calmPlanner : PlannerEnv where
  recoveryInProgress := false
  ignoreSystemIndexes := false
  transactionXmin := 800
  estimateRelSize := fun _ => (10, 1000)
  numberOfBlocks := fun _ => 5

def noRules : Rules := ⟨fun _ => none, [], fun _ => []⟩

theorem plan_ignores_hypothetical_select :
    PlannedRel.info ⟨16384, false, false⟩ calmPlanner indexedTable false =
      PlannedRel.info ⟨16384, false, false⟩ calmPlanner indexedTable.withoutHypothetical false :=
  plan_ignores_hypothetical anyTable noRules
    (t := .preparable (.select (selectFrom "t"))) trivial rfl
    (.base (mem_singleton.mpr rfl) (fun h => Bool.noConfusion h))
    calmPlanner indexedTable false

/-! ## Statements under `EXPLAIN HYPOTHETICAL` -/

def SelectStmt.isSimple : SelectStmt → Bool
  | .mk _ _ _ _ _ _ (.simple ..) => true
  | _ => false

def SelectStmt.isSetOperation : SelectStmt → Bool
  | .mk _ _ _ _ _ _ (.setOp ..) => true
  | _ => false

/-- A plain `SELECT`, or an `INSERT`, `UPDATE` or `DELETE`. -/
def PreparableStmt.isPlain : PreparableStmt → Bool
  | .select stmt => stmt.isSimple
  | _ => true

/-- Whether the statement is an `INSERT` from a plain `SELECT`. -/
def PreparableStmt.insertsSimple : PreparableStmt → Bool
  | .insert _ _ _ (some stmt) _ => stmt.isSimple
  | _ => false

def PreparableStmt.isSetOperation : PreparableStmt → Bool
  | .select stmt => stmt.isSetOperation
  | _ => false

/-- Every sub-query in the range table has the flag `b`. -/
def Query.SubqueriesAre (b : Bool) (q : Query) : Prop :=
  ∀ sub aliasname, .subquery sub aliasname ∈ q.rtable → sub.hypothetical = b

variable (env : Analyzer) (pstate : ParseState) {stmt : SelectStmt}

theorem transformSelect_flag (hypothetical cleared : Bool) (h : stmt.isSimple) :
    Yields (fun q => q.hypothetical = hypothetical)
      (transformSelect env pstate hypothetical cleared stmt) := by
  obtain ⟨recursive, ctes, sortClause, limitOffset, limitCount, lockingClause, body⟩ := stmt
  cases body with
  | values => cases h
  | setOp => cases h
  | simple =>
    repeat
      apply Yields.after
      intro _
    exact yields_pure rfl

variable (hypothetical : Bool)

/-- The flag of an `INSERT` reaches a plain source. -/
theorem transformInsertSource_flag (h : stmt.isSimple) :
    Yields (fun source => ∀ sub aliasname, .subquery sub aliasname ∈ source.1 →
        sub.hypothetical = hypothetical)
      (transformInsertSource env pstate hypothetical (some stmt)) := by
  have hFlag := transformSelect_flag env pstate.child hypothetical false h
  obtain ⟨recursive, ctes, sortClause, limitOffset, limitCount, lockingClause, body⟩ := stmt
  cases body with
  | values => cases h
  | setOp => cases h
  | simple =>
    apply hFlag.bind
    intro q hq
    apply Yields.after
    intro _
    apply yields_pure
    intro sub aliasname hMem
    cases mem_singleton.mp hMem
    exact hq

theorem transformSelect_arms (hypothetical cleared : Bool) (h : stmt.isSetOperation) :
    Yields (Query.SubqueriesAre false) (transformSelect env pstate hypothetical cleared stmt) := by
  obtain ⟨recursive, ctes, sortClause, limitOffset, limitCount, lockingClause, body⟩ := stmt
  cases body with
  | simple => cases h
  | values => cases h
  | setOp op all larg rarg =>
    apply Yields.after
    intro _
    apply Yields.after
    intro _
    apply Yields.after
    intro _
    apply (transformSetOperationTree_plain env _ true 0 larg).bind
    intro l hl
    apply (transformSetOperationTree_plain env _ false _ rarg).bind
    intro r hr
    repeat
      apply Yields.after
      intro _
    apply yields_pure
    intro sub aliasname hMem
    exact (plain_of_subquery (forall_append.mpr ⟨hl, hr⟩) hMem).hypothetical

/-- `INSERT`, `UPDATE`, `DELETE` and a plain `SELECT` store the flag they are
given. -/
theorem transformPreparable_flag {stmt : PreparableStmt} (h : stmt.isPlain) :
    Yields (fun q => q.hypothetical = hypothetical)
      (transformPreparable env pstate hypothetical stmt) := by
  cases stmt with
  | select stmt =>
    exact transformSelect_flag env pstate hypothetical false h
  | insert | update | delete =>
    repeat
      apply Yields.after
      intro _
    exact yields_pure rfl

theorem transformPreparable_source {stmt : PreparableStmt} (h : stmt.insertsSimple) :
    Yields (Query.SubqueriesAre hypothetical)
      (transformPreparable env pstate hypothetical stmt) := by
  cases stmt with
  | select | update | delete => cases h
  | insert recursive ctes relation selectStmt returningList =>
    cases selectStmt with
    | none => cases h
    | some stmt =>
      iterate 4
        apply Yields.after
        intro _
      apply (transformInsertSource_flag env _ hypothetical h).bind
      intro source hSource
      apply Yields.after
      intro _
      apply yields_pure
      intro sub aliasname hMem
      rcases mem_cons.mp hMem with hEq | hMem
      · cases hEq
      · exact hSource sub aliasname hMem

/-- The planner considers every usable index of every table named in the query
itself, the hypothetical ones included. -/
def Query.ReachesOwnLevel (q : Query) : Prop :=
  ∀ relid inh aliasname, .relation relid inh aliasname ∈ q.rtable →
    ∀ (planner : PlannerEnv) (cat : Catalog) (transientPlan : Bool),
      Yields (ConsidersAll planner cat relid)
        (getRelationInfo planner cat transientPlan relid false q.hypothetical)

theorem reachesOwnLevel_of_flag (h : q.hypothetical) : q.ReachesOwnLevel := by
  intro relid inh aliasname _ planner cat transientPlan
  rw [h]
  exact getRelationInfo_considersAll planner cat transientPlan relid

/-- **What-if reach.** Under `EXPLAIN HYPOTHETICAL` a plain `SELECT`, an `INSERT`, an `UPDATE` or a
`DELETE` carries the flag, and so does the plain `SELECT` an `INSERT` draws from; the planner then
considers the hypothetical indexes of every table named there. The arms of a set operation do not
carry it. -/
theorem explain_reaches_ownLevel (env : Analyzer) (stmt : PreparableStmt) (options : List String)
    {q : Query} (hq : transformExplainStmt env topState ⟨.preparable stmt, options, true⟩ = .ok q) :
    ∃ query, q.utilityStmt = .explain query options true ∧
      (stmt.isPlain = true → query.hypothetical = true ∧ query.ReachesOwnLevel) ∧
      (stmt.insertsSimple = true → ∀ sub aliasname,
        .subquery sub aliasname ∈ query.rtable →
          sub.hypothetical = true ∧ sub.ReachesOwnLevel) ∧
      (stmt.isSetOperation = true → query.SubqueriesAre false) := by
  obtain ⟨query, hQuery, hMade⟩ := bind_eq_ok.mp hq
  cases hMade
  have hQuery : transformPreparable env topState true stmt = .ok query := hQuery
  refine ⟨query, rfl, fun hPlain => ?_, fun hSource sub aliasname hMem => ?_, fun hSetOp => ?_⟩
  · have hFlag := (transformPreparable_flag env topState true hPlain).ok query hQuery
    exact ⟨hFlag, reachesOwnLevel_of_flag hFlag⟩
  · have hFlag := (transformPreparable_source env topState true hSource).ok query
      hQuery sub aliasname hMem
    exact ⟨hFlag, reachesOwnLevel_of_flag hFlag⟩
  · cases stmt with
    | insert | update | delete => cases hSetOp
    | select stmt =>
      exact (transformSelect_arms env topState true false hSetOp).ok query hQuery

/-- Explaining `INSERT INTO t SELECT a FROM t`. -/
theorem explain_reaches_insertSelect :
    ∃ q, transformExplainStmt anyTable topState
        ⟨.preparable (.insert false [] ⟨none, "t", true, none⟩
          (some (selectFrom "t")) []), [], true⟩ = .ok q ∧
      ∃ query, q.utilityStmt = .explain query [] true ∧ query.hypothetical = true := by
  refine ⟨_, rfl, ?_⟩
  obtain ⟨query, hUtility, hPlain, -⟩ := explain_reaches_ownLevel anyTable
    (.insert false [] ⟨none, "t", true, none⟩ (some (selectFrom "t")) []) [] rfl
  exact ⟨query, hUtility, (hPlain rfl).1⟩

def unionOf (larg rarg : SelectStmt) : SelectStmt :=
  .mk false [] [] [] [] [] (.setOp .union false larg rarg)

/-- `EXPLAIN HYPOTHETICAL SELECT a FROM t UNION SELECT a FROM u`: the two outer
nodes carry the flag, the union and its arms do not. -/
theorem explain_union_arms_unflagged :
    (parseAnalyze anyTable (explainHypothetical
        (unionOf (selectFrom "t") (selectFrom "u"))) false).toOption.map Query.flags =
      some [true, true, false, false, false] := by
  decide

end PgTuning.Backend
