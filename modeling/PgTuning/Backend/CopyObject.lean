import PgTuning.Backend.Flags

/-!
# `copyObject` and the two protocols

`exec_simple_query` analyses the raw parse tree itself; the extended protocol, SPI, `PREPARE` and
`COPY` analyse a copy of it. A copy function names the fields it copies; a field it does not name is
left as `makeNode` made it. `_copyExplainStmt` names `query` and `options`, so the copy of a tree is
the tree itself unless it is an `EXPLAIN HYPOTHETICAL`, whose copy is a plain `EXPLAIN`.
-/

namespace PgTuning.Backend

open PgTuning.Lib.Outcome

/-! ## The copy functions -/

mutual

def copyExpr : Expr → Expr
  | .leaf text => .leaf text
  | .node args => .node (copyExprs args)
  | .subLink testexpr subselect =>
    .subLink (copyExprs testexpr) (copySelectStmt subselect)

def copyExprs : List Expr → List Expr
  | [] => []
  | e :: es => copyExpr e :: copyExprs es

def copyRows : List (List Expr) → List (List Expr)
  | [] => []
  | row :: rows => copyExprs row :: copyRows rows

def copyFromItem : FromItem → FromItem
  | .rangeVar relation => .rangeVar relation
  | .rangeSubselect subquery aliasname =>
    .rangeSubselect (copySelectStmt subquery) aliasname
  | .rangeFunction funccallnode => .rangeFunction (copyExpr funccallnode)
  | .joinExpr larg rarg quals =>
    .joinExpr (copyFromItem larg) (copyFromItem rarg) (copyExprs quals)

def copyFromClause : List FromItem → List FromItem
  | [] => []
  | item :: items => copyFromItem item :: copyFromClause items

def copySelectStmt : SelectStmt → SelectStmt
  | .mk recursive ctes sortClause limitOffset limitCount lockingClause body =>
    .mk recursive (copyCtes ctes) (copyExprs sortClause) (copyExprs limitOffset)
      (copyExprs limitCount) lockingClause (copySelectBody body)

def copySelectBody : SelectBody → SelectBody
  | .simple distinctClause intoClause targetList fromClause whereClause groupClause
      havingClause windowClause =>
      .simple (copyExprs distinctClause) intoClause (copyExprs targetList)
        (copyFromClause fromClause) (copyExprs whereClause) (copyExprs groupClause)
        (copyExprs havingClause) (copyExprs windowClause)
  | .values intoClause valuesLists => .values intoClause (copyRows valuesLists)
  | .setOp op all larg rarg =>
    .setOp op all (copySelectStmt larg) (copySelectStmt rarg)

def copyCtes : List CommonTableExpr → List CommonTableExpr
  | [] => []
  | .mk ctename ctequery :: ctes =>
    .mk ctename (copyPreparableStmt ctequery) :: copyCtes ctes

def copyInsertSource : Option SelectStmt → Option SelectStmt
  | none => none
  | some stmt => some (copySelectStmt stmt)

/-- `_copySelectStmt`, `_copyInsertStmt`, `_copyUpdateStmt`, `_copyDeleteStmt`. -/
def copyPreparableStmt : PreparableStmt → PreparableStmt
  | .select stmt => .select (copySelectStmt stmt)
  | .insert recursive ctes relation selectStmt returningList =>
    .insert recursive (copyCtes ctes) relation (copyInsertSource selectStmt)
      (copyExprs returningList)
  | .update recursive ctes relation targetList fromClause whereClause
      returningList =>
      .update recursive (copyCtes ctes) relation (copyExprs targetList)
        (copyFromClause fromClause) (copyExprs whereClause) (copyExprs returningList)
  | .delete recursive ctes relation usingClause whereClause returningList =>
    .delete recursive (copyCtes ctes) relation (copyFromClause usingClause)
      (copyExprs whereClause) (copyExprs returningList)

end

def copyDeclareCursorStmt (source : DeclareCursorStmt) : DeclareCursorStmt where
  portalname := source.portalname
  options := source.options
  query := copySelectStmt source.query

def copyExplainableStmt : ExplainableStmt → ExplainableStmt
  | .preparable stmt => .preparable (copyPreparableStmt stmt)
  | .declareCursor stmt => .declareCursor (copyDeclareCursorStmt stmt)
  | .execute name params into => .execute name (copyExprs params) into

/-- `_copyExplainStmt`: the flag is not among the fields copied. -/
def copyExplainStmt (source : ExplainStmt) : ExplainStmt where
  query := copyExplainableStmt source.query
  options := source.options
  hypothetical := false

def copyIndexStmt (source : IndexStmt) : IndexStmt where
  idxname := source.idxname
  relation := source.relation
  accessMethod := source.accessMethod
  indexParams := copyExprs source.indexParams
  whereClause := copyExprs source.whereClause
  hypothetical := source.hypothetical
  unique := source.unique
  primary := source.primary
  isconstraint := source.isconstraint
  concurrent := source.concurrent

def copyObject : RawStmt → RawStmt
  | .preparable stmt => .preparable (copyPreparableStmt stmt)
  | .declareCursor stmt => .declareCursor (copyDeclareCursorStmt stmt)
  | .explain stmt => .explain (copyExplainStmt stmt)
  | .index stmt => .index (copyIndexStmt stmt)
  | .utility tag indexes statements =>
    .utility tag (indexes.map copyIndexStmt) (statements.map copyPreparableStmt)

mutual

def copyQuery : Query → Query
  | .mk commandType hypothetical utilityStmt hasModifyingCTE intoClause cteList rtable
      subLinks setOperations rowMarks =>
      .mk commandType hypothetical (copyUtilityStmt utilityStmt) hasModifyingCTE
        intoClause (copyCteList cteList) (copyRtable rtable) (copyQueries subLinks)
        setOperations rowMarks

/-- The statement under an analysed `EXPLAIN` is a `Query` by now, but the node is
still an `ExplainStmt`. -/
def copyUtilityStmt : UtilityStmt → UtilityStmt
  | .none => .none
  | .explain query options _ => .explain (copyQuery query) options false
  | .declareCursor portalname options => .declareCursor portalname options
  | .raw stmt => .raw (copyObject stmt)
  | .execute name params into => .execute name (copyExprs params) into

def copyCteList : List CteEntry → List CteEntry
  | [] => []
  | .mk ctename ctequery :: ctes => .mk ctename (copyQuery ctequery) :: copyCteList ctes

def copyRtable : List RangeTblEntry → List RangeTblEntry
  | [] => []
  | rte :: rtable => copyRangeTblEntry rte :: copyRtable rtable

def copyRangeTblEntry : RangeTblEntry → RangeTblEntry
  | .relation relid inh aliasname => .relation relid inh aliasname
  | .subquery subquery aliasname => .subquery (copyQuery subquery) aliasname
  | .join => .join
  | .function subLinks => .function (copyQueries subLinks)
  | .values subLinks => .values (copyQueries subLinks)
  | .cte ctename aliasname => .cte ctename aliasname

def copyQueries : List Query → List Query
  | [] => []
  | q :: qs => copyQuery q :: copyQueries qs

end

def copyPlannedStmt (source : PlannedStmt) : PlannedStmt where
  commandType := source.commandType
  hypothetical := source.hypothetical
  transientPlan := source.transientPlan
  rtable := copyRtable source.rtable
  utilityStmt := copyUtilityStmt source.utilityStmt

/-! ## A copied statement is the statement -/

mutual

theorem copyExpr_eq : ∀ e : Expr, copyExpr e = e
  | .leaf _ => by rw [copyExpr]
  | .node args => by rw [copyExpr, copyExprs_eq args]
  | .subLink testexpr subselect => by
    rw [copyExpr, copyExprs_eq testexpr, copySelectStmt_eq subselect]

theorem copyExprs_eq : ∀ es : List Expr, copyExprs es = es
  | [] => by rw [copyExprs]
  | e :: es => by rw [copyExprs, copyExpr_eq e, copyExprs_eq es]

theorem copyRows_eq : ∀ rows : List (List Expr), copyRows rows = rows
  | [] => by rw [copyRows]
  | row :: rows => by rw [copyRows, copyExprs_eq row, copyRows_eq rows]

theorem copyFromItem_eq : ∀ item : FromItem, copyFromItem item = item
  | .rangeVar _ => by rw [copyFromItem]
  | .rangeSubselect subquery _ => by rw [copyFromItem, copySelectStmt_eq subquery]
  | .rangeFunction funccallnode => by rw [copyFromItem, copyExpr_eq funccallnode]
  | .joinExpr larg rarg quals => by
    rw [copyFromItem, copyFromItem_eq larg, copyFromItem_eq rarg, copyExprs_eq quals]

theorem copyFromClause_eq : ∀ items : List FromItem, copyFromClause items = items
  | [] => by rw [copyFromClause]
  | item :: items => by
    rw [copyFromClause, copyFromItem_eq item, copyFromClause_eq items]

theorem copySelectStmt_eq : ∀ stmt : SelectStmt, copySelectStmt stmt = stmt
  | .mk _ ctes sortClause limitOffset limitCount _ body => by
    rw [copySelectStmt, copyCtes_eq ctes, copyExprs_eq sortClause,
      copyExprs_eq limitOffset, copyExprs_eq limitCount, copySelectBody_eq body]

theorem copySelectBody_eq : ∀ body : SelectBody, copySelectBody body = body
  | .simple distinctClause _ targetList fromClause whereClause groupClause
      havingClause windowClause => by
      rw [copySelectBody, copyExprs_eq distinctClause, copyExprs_eq targetList,
        copyFromClause_eq fromClause, copyExprs_eq whereClause, copyExprs_eq groupClause,
        copyExprs_eq havingClause, copyExprs_eq windowClause]
  | .values _ valuesLists => by rw [copySelectBody, copyRows_eq valuesLists]
  | .setOp _ _ larg rarg => by
    rw [copySelectBody, copySelectStmt_eq larg, copySelectStmt_eq rarg]

theorem copyCtes_eq : ∀ ctes : List CommonTableExpr, copyCtes ctes = ctes
  | [] => by rw [copyCtes]
  | .mk _ ctequery :: ctes => by
    rw [copyCtes, copyPreparableStmt_eq ctequery, copyCtes_eq ctes]

theorem copyInsertSource_eq :
    ∀ selectStmt : Option SelectStmt, copyInsertSource selectStmt = selectStmt
  | none => by rw [copyInsertSource]
  | some stmt => by rw [copyInsertSource, copySelectStmt_eq stmt]

theorem copyPreparableStmt_eq :
    ∀ stmt : PreparableStmt, copyPreparableStmt stmt = stmt
  | .select stmt => by rw [copyPreparableStmt, copySelectStmt_eq stmt]
  | .insert _ ctes _ selectStmt returningList => by
    rw [copyPreparableStmt, copyCtes_eq ctes, copyInsertSource_eq selectStmt,
      copyExprs_eq returningList]
  | .update _ ctes _ targetList fromClause whereClause returningList => by
    rw [copyPreparableStmt, copyCtes_eq ctes, copyExprs_eq targetList, copyFromClause_eq fromClause,
      copyExprs_eq whereClause, copyExprs_eq returningList]
  | .delete _ ctes _ usingClause whereClause returningList => by
    rw [copyPreparableStmt, copyCtes_eq ctes, copyFromClause_eq usingClause,
      copyExprs_eq whereClause, copyExprs_eq returningList]

end

theorem copyDeclareCursorStmt_eq (stmt : DeclareCursorStmt) :
    copyDeclareCursorStmt stmt = stmt := by
  unfold copyDeclareCursorStmt
  rw [copySelectStmt_eq]

theorem copyExplainableStmt_eq (stmt : ExplainableStmt) : copyExplainableStmt stmt = stmt := by
  cases stmt with
  | preparable stmt => rw [copyExplainableStmt, copyPreparableStmt_eq]
  | declareCursor stmt => rw [copyExplainableStmt, copyDeclareCursorStmt_eq]
  | execute name params into => rw [copyExplainableStmt, copyExprs_eq]

theorem copyIndexStmt_eq (stmt : IndexStmt) : copyIndexStmt stmt = stmt := by
  unfold copyIndexStmt
  rw [copyExprs_eq, copyExprs_eq]

theorem copyExplainStmt_eq (stmt : ExplainStmt) :
    copyExplainStmt stmt = { stmt with hypothetical := false } := by
  unfold copyExplainStmt
  rw [copyExplainableStmt_eq]

/-- Every raw parse tree but an `EXPLAIN` is copied faithfully. -/
theorem copyObject_eq {t : RawStmt} (h : ∀ stmt, t ≠ .explain stmt) : copyObject t = t := by
  cases t with
  | preparable stmt => rw [copyObject, copyPreparableStmt_eq]
  | declareCursor stmt => rw [copyObject, copyDeclareCursorStmt_eq]
  | explain stmt => exact absurd rfl (h stmt)
  | index stmt => rw [copyObject, copyIndexStmt_eq]
  | utility tag indexes statements =>
    rw [copyObject]
    have hIndexes : copyIndexStmt = id := funext copyIndexStmt_eq
    have hStatements : copyPreparableStmt = id := funext copyPreparableStmt_eq
    rw [hIndexes, hStatements, List.map_id, List.map_id]

/-! ## Path agreement -/

/-- The two paths reject the statement alike, or the query trees they yield carry
the same flags node by node. -/
def FlagsAgree (x y : Except Error Query) : Prop :=
  Related (fun q q' => q.flags = q'.flags) x y

theorem flagsAgree_refl (x : Except Error Query) : FlagsAgree x x := by
  apply related_refl
  intro q
  rfl

theorem FlagsAgree.flags {x y : Except Error Query} (h : FlagsAgree x y) :
    x.toOption.map Query.flags = y.toOption.map Query.flags := by
  cases h with
  | ok hEq => exact congrArg some hEq
  | error e => rfl

/-- An `EXPLAIN HYPOTHETICAL` of a statement parse analysis accepts. -/
def ExplainsHypothetically (env : Analyzer) (t : RawStmt) : Prop :=
  ∃ stmt query, t = .explain stmt ∧ stmt.hypothetical = true ∧
    transformExplainable env topState true stmt.query = .ok query

/-- The first flag of an analysed `EXPLAIN` is the flag of its node. -/
theorem transformExplainStmt_flags {env : Analyzer} {pstate : ParseState} {stmt : ExplainStmt}
    {q : Query} (h : transformExplainStmt env pstate stmt = .ok q) :
    q.flags.head? = some stmt.hypothetical := by
  obtain ⟨query, -, hq⟩ := bind_eq_ok.mp h
  cases hq
  rfl

theorem explain_flagsAgree_iff (env : Analyzer) (stmt : ExplainStmt) :
    FlagsAgree (parseAnalyzeVarparams env (copyObject (.explain stmt)))
        (parseAnalyze env (.explain stmt) false) ↔
      ¬ ExplainsHypothetically env (.explain stmt) := by
  show FlagsAgree (transformExplainStmt env topState (copyExplainStmt stmt))
    (transformExplainStmt env topState stmt) ↔ _
  rw [copyExplainStmt_eq]
  cases hFlag : stmt.hypothetical with
  | false =>
    have hSame : ({ stmt with hypothetical := false } : ExplainStmt) = stmt := by
      rw [← hFlag]
    rw [hSame]
    refine ⟨fun _ => ?_, fun _ => flagsAgree_refl _⟩
    rintro ⟨stmt', query, hEq, hTrue, -⟩
    cases hEq
    rw [hFlag] at hTrue
    cases hTrue
  | true =>
    have hRelated := transformExplainable_related env topState true false stmt.query
    cases hRun : transformExplainable env topState true stmt.query with
    | error e =>
      -- Rejected with the flag, hence rejected without it.
      have hCopy : transformExplainStmt env topState
          { stmt with hypothetical := false } = .error e := by
        unfold transformExplainStmt
        rw [hRelated.eq_error hRun]
        rfl
      have hOrig : transformExplainStmt env topState stmt = .error e := by
        unfold transformExplainStmt
        rw [hFlag, hRun]
        rfl
      rw [hCopy, hOrig]
      refine ⟨fun _ => ?_, fun _ => flagsAgree_refl _⟩
      rintro ⟨stmt', query, hEq, -, hOk⟩
      cases hEq
      rw [hRun] at hOk
      cases hOk
    | ok query =>
      refine ⟨fun hAgree => ?_, fun hNot => ?_⟩
      · exfalso
        generalize hx : transformExplainStmt env topState
          { stmt with hypothetical := false } = x at hAgree
        generalize hy : transformExplainStmt env topState stmt = y at hAgree
        cases hAgree with
        | ok hEq =>
          have hHead := transformExplainStmt_flags hx
          rw [hEq, transformExplainStmt_flags hy, hFlag] at hHead
          cases hHead
        | error e =>
          unfold transformExplainStmt at hy
          rw [hFlag, hRun] at hy
          cases hy
      · exact absurd ⟨stmt, query, rfl, hFlag, hRun⟩ hNot

/-- **Path agreement.** Analysing the copy of a raw parse tree yields the flags that analysing the
tree itself yields exactly when the tree is not an `EXPLAIN HYPOTHETICAL` of an acceptable
statement. Of the four node kinds that carry the flag, copying keeps it in all but `ExplainStmt`. -/
theorem copyObject_flags_agree_iff (env : Analyzer) (t : RawStmt) :
    (FlagsAgree (parseAnalyzeVarparams env (copyObject t)) (parseAnalyze env t false) ↔
      ¬ ExplainsHypothetically env t) ∧
    (∀ stmt : IndexStmt, (copyIndexStmt stmt).hypothetical = stmt.hypothetical) ∧
    (∀ q : Query, (copyQuery q).hypothetical = q.hypothetical) ∧
    (∀ p : PlannedStmt, (copyPlannedStmt p).hypothetical = p.hypothetical) ∧
    ∀ stmt : ExplainStmt, (copyExplainStmt stmt).hypothetical = stmt.hypothetical ↔
      stmt.hypothetical = false := by
  refine ⟨?_, fun _ => rfl, ?_, fun _ => rfl, ?_⟩
  · by_cases hExplain : ∃ stmt, t = .explain stmt
    · obtain ⟨stmt, rfl⟩ := hExplain
      exact explain_flagsAgree_iff env stmt
    · have hNot : ∀ stmt, t ≠ .explain stmt := fun stmt h => hExplain ⟨stmt, h⟩
      rw [copyObject_eq hNot]
      refine ⟨fun _ => ?_, fun _ => flagsAgree_refl _⟩
      rintro ⟨stmt, -, h, -⟩
      exact hNot stmt h
  · intro q
    cases q
    rfl
  · intro stmt
    exact eq_comm

/-- Every table exists, and nothing else is wrong. -/
def anyTable : Analyzer where
  relation := fun _ => .ok 16384
  check := fun _ => .ok ()
  strayStore := .ok ()

def selectFrom (name : String) : SelectStmt :=
  .mk false [] [] [] [] [] (.simple [] none [.leaf "a"]
    [.rangeVar ⟨none, name, true, none⟩] [] [] [] [])

def explainHypothetical (stmt : SelectStmt) : RawStmt :=
  .explain ⟨.preparable (.select stmt), [], true⟩

/-- Through the simple protocol `EXPLAIN HYPOTHETICAL SELECT a FROM t` carries the
flag in all three nodes, through the extended protocol in none. -/
theorem copyObject_loses_flag :
    ¬ FlagsAgree
      (parseAnalyzeVarparams anyTable (copyObject (explainHypothetical (selectFrom "t"))))
      (parseAnalyze anyTable (explainHypothetical (selectFrom "t")) false) := by
  have hSimple : (parseAnalyze anyTable (explainHypothetical (selectFrom "t"))
      false).toOption.map Query.flags = some [true, true, true] := by
    decide
  have hExtended : (parseAnalyzeVarparams anyTable
      (copyObject (explainHypothetical (selectFrom "t")))).toOption.map
      Query.flags = some [false, false, false] := by
    decide
  intro hAgree
  have hFlags := hAgree.flags
  cases hFlags

end PgTuning.Backend
