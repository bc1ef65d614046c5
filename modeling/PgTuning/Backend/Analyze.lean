import PgTuning.Backend.ParseNodes
import PgTuning.Lib.Outcome

/-!
# Parse analysis

`transformStmt` turns a raw parse tree into a `Query`. The argument `hypothetical` is handed on by
some of the functions it dispatches to and not by others: plain `SELECT`, `INSERT`, `UPDATE` and
`DELETE` store it in their `Query`, `VALUES` and set operations do not take it, and every
sub-statement is analysed by `parse_sub_analyze`, which passes false.

What does not depend on the flag and does not carry statements is a parameter (`Analyzer`): the
lookup of relations, and the remaining checks, which may reject any statement. The names of the
`WITH` queries in scope are tracked, since a `FROM` item may refer to one of them.

`transformDeclareCursorStmt` first stores the flag through a pointer it has not set yet;
`strayStore` says whether the server survives that.
-/

namespace PgTuning.Backend

open PgTuning.Lib.Outcome

/-- What parse analysis asks the rest of the system. -/
structure Analyzer where
  relation : RangeVar → Except Error Oid
  check : PreparableStmt → Except Error Unit
  strayStore : Except Error Unit

/-- The part of a `ParseState` that matters: the visible `WITH` names, and whether
there is an outer query. -/
structure ParseState where
  ctenamespace : List String
  hasParent : Bool

def ParseState.child (pstate : ParseState) : ParseState :=
  { pstate with hasParent := true }

def ParseState.addCtes (pstate : ParseState) (names : List String) : ParseState :=
  { pstate with ctenamespace := names ++ pstate.ctenamespace }

/-! ## Pieces without recursion -/

def CommonTableExpr.ctename : CommonTableExpr → String
  | .mk ctename _ => ctename

/-- A `WITH` query that is not a `SELECT`. -/
def CommonTableExpr.isModifying : CommonTableExpr → Bool
  | .mk _ (.select _) => false
  | _ => true

/-- The first name that occurs again later. -/
def firstDuplicate : List String → Option String
  | [] => none
  | x :: xs => if xs.contains x then some x else firstDuplicate xs

/-- The names in a `WITH` list must differ. -/
def checkDuplicateCtes (ctes : List CommonTableExpr) : Except Error Unit :=
  match firstDuplicate (ctes.map CommonTableExpr.ctename) with
  | none => .ok ()
  | some name => .error ⟨.duplicateAlias,
      "WITH query name \"" ++ name ++ "\" specified more than once"⟩

def rejectInto (qry : Query) (code : ErrCode) (message : String) :
    Except Error Unit :=
  rejectIf qry.intoClause.isSome ⟨code, message⟩

/-- The sub-query is a `SELECT` and no utility statement; the grammar sees to it. -/
def expectSelect (qry : Query) (message : String) : Except Error Unit :=
  rejectIf (!(qry.commandType == .select &&
    match qry.utilityStmt with | .none => true | _ => false))
    ⟨.internalError, message⟩

def RangeTblEntry.refname : RangeTblEntry → Option String
  | .relation _ _ aliasname => some aliasname
  | .subquery _ aliasname => some aliasname
  | .cte _ aliasname => some aliasname
  | _ => none

def RangeTblEntry.lockable : RangeTblEntry → Bool
  | .relation .. => true
  | .subquery .. => true
  | _ => false

/-- The entries a locking clause marks: the named ones, or all tables and
sub-queries. -/
def rowMarksOf (rtable : List RangeTblEntry) (lc : LockingClause) : List Nat :=
  ((List.range rtable.length).zip rtable).filterMap fun (i, rte) =>
    let named := match rte.refname with
      | some name => lc.lockedRels.any (·.relname == name)
      | none => false
    if rte.lockable && (lc.lockedRels.isEmpty || named) then some (i + 1) else none

/-- A relation in `FROM`: a `WITH` query in scope if the name is unqualified and
there is one, else a table. -/
def transformRangeVar (env : Analyzer) (pstate : ParseState) (rv : RangeVar) :
    Except Error RangeTblEntry :=
  if rv.schemaname.isNone && pstate.ctenamespace.contains rv.relname then
    .ok (.cte rv.relname rv.refname)
  else do
    let relid ← env.relation rv
    return .relation relid rv.inh rv.refname

/-- The clauses attached to a `SELECT`, each with the outcome of its analysis;
`modifying` is `p_hasModifyingCTE`. -/
structure Clauses where
  cteList : Except Error (List CteEntry)
  modifying : Bool
  sortClause : Except Error (List Query)
  limitOffset : Except Error (List Query)
  limitCount : Except Error (List Query)
  lockingClause : List LockingClause

/-- The `INTO` clause of the leftmost leaf of a set-operation tree. -/
def SelectStmt.leftmostInto : SelectStmt → Option IntoClause
  | .mk _ _ _ _ _ _ (.simple _ intoClause ..) => intoClause
  | .mk _ _ _ _ _ _ (.values intoClause _) => intoClause
  | .mk _ _ _ _ _ _ (.setOp _ _ larg _) => larg.leftmostInto

def SelectStmt.ownInto : SelectStmt → Option IntoClause
  | .mk _ _ _ _ _ _ (.simple _ intoClause ..) => intoClause
  | .mk _ _ _ _ _ _ (.values intoClause _) => intoClause
  | .mk _ _ _ _ _ _ (.setOp ..) => none

def lockingNotAllowed : Error :=
  ⟨.featureNotSupported,
    "SELECT FOR UPDATE/SHARE is not allowed with UNION/INTERSECT/EXCEPT"⟩

/-- `isGeneralSelect`: the source of an `INSERT` is not a bare `VALUES` list. -/
def SelectStmt.isGeneral : SelectStmt → Bool
  | .mk _ ctes sortClause limitOffset limitCount lockingClause (.values ..) =>
    !sortClause.isEmpty || !limitOffset.isEmpty || !limitCount.isEmpty ||
      !lockingClause.isEmpty || !ctes.isEmpty
  | _ => true

/-- The checks `transformInsertStmt` makes on its source. -/
def checkInsertSource (selectQuery : Query) : Except Error Unit := do
  expectSelect selectQuery "unexpected non-SELECT command in INSERT ... SELECT"
  rejectInto selectQuery .syntaxError "INSERT ... SELECT cannot specify INTO"

/-- The source `SELECT` becomes a sub-query of the `INSERT`. -/
def insertSelect (selectQuery : Except Error Query) :
    Except Error (List RangeTblEntry × List Query) := do
  let selectQuery ← selectQuery
  checkInsertSource selectQuery
  return ([.subquery selectQuery "*SELECT*"], [])

/-- A leaf of a set-operation tree becomes a sub-query of the whole. -/
def setOperationLeaf (base : Nat) (selectQuery : Except Error Query) :
    Except Error (SetOperationTree × List RangeTblEntry) := do
  let selectQuery ← selectQuery
  return (.rangeTblRef (base + 1),
    [.subquery selectQuery ("*SELECT* " ++ toString (base + 1))])

/-! ## The transformation -/

mutual

/-- `transformExpr`: the queries of the sub-links. -/
def transformExpr (env : Analyzer) (pstate : ParseState) :
    Expr → Except Error (List Query)
  | .leaf _ => .ok []
  | .node args => transformExprs env pstate args
  | .subLink testexpr subselect => do
      let qtree ← transformSelect env pstate.child false false subselect
      expectSelect qtree "unexpected non-SELECT command in SubLink"
      rejectInto qtree .syntaxError "subquery cannot have SELECT INTO"
      let tests ← transformExprs env pstate testexpr
      return qtree :: tests

def transformExprs (env : Analyzer) (pstate : ParseState) :
    List Expr → Except Error (List Query)
  | [] => .ok []
  | e :: es => do
      let q ← transformExpr env pstate e
      let qs ← transformExprs env pstate es
      return q ++ qs

/-- `transformExpressionList` on every row of a `VALUES` list. -/
def transformRows (env : Analyzer) (pstate : ParseState) :
    List (List Expr) → Except Error (List Query)
  | [] => .ok []
  | row :: rows => do
      let q ← transformExprs env pstate row
      let qs ← transformRows env pstate rows
      return q ++ qs

/-- `transformFromClauseItem`: the range-table entries it adds, and the queries of
the sub-links in join conditions. -/
def transformFromClauseItem (env : Analyzer) (pstate : ParseState) :
    FromItem → Except Error (List RangeTblEntry × List Query)
  | .rangeVar rv => do
      let rte ← transformRangeVar env pstate rv
      return ([rte], [])
  | .rangeSubselect subquery aliasname => do
      let query ← transformSelect env pstate.child false false subquery
      expectSelect query "unexpected non-SELECT command in subquery in FROM"
      rejectInto query .syntaxError "subquery in FROM cannot have SELECT INTO"
      return ([.subquery query aliasname], [])
  | .rangeFunction funccallnode => do
      let subLinks ← transformExpr env pstate funccallnode
      return ([.function subLinks], [])
  | .joinExpr larg rarg quals => do
      let l ← transformFromClauseItem env pstate larg
      let r ← transformFromClauseItem env pstate rarg
      let subLinks ← transformExprs env pstate quals
      return (l.1 ++ r.1 ++ [.join], l.2 ++ r.2 ++ subLinks)

def transformFromClause (env : Analyzer) (pstate : ParseState) :
    List FromItem → Except Error (List RangeTblEntry × List Query)
  | [] => .ok ([], [])
  | item :: items => do
      let x ← transformFromClauseItem env pstate item
      let xs ← transformFromClause env pstate items
      return (x.1 ++ xs.1, x.2 ++ xs.2)

/-- `analyzeCTE` on each member of a `WITH` list. Without `RECURSIVE` a query
sees the ones before it. -/
def analyzeCTEs (env : Analyzer) (pstate : ParseState) (recursive : Bool) :
    List CommonTableExpr → Except Error (List CteEntry)
  | [] => .ok []
  | .mk ctename ctequery :: ctes => do
      let query ← transformPreparable env pstate.child false ctequery
      rejectIf (match query.utilityStmt with | .none => false | _ => true)
        ⟨.internalError, "unexpected utility statement in WITH"⟩
      rejectInto query .syntaxError "subquery in WITH cannot have SELECT INTO"
      rejectIf (query.commandType != .select && pstate.hasParent)
        ⟨.featureNotSupported, "WITH clause containing a data-modifying statement must be at the top level"⟩
      let rest ← analyzeCTEs env
        (if recursive then pstate else pstate.addCtes [ctename]) recursive ctes
      return .mk ctename query :: rest

/-- `transformStmt` on a `SELECT`; `cleared` says that an outer set operation has
taken the `INTO` clause of the leftmost leaf. -/
def transformSelect (env : Analyzer) (pstate : ParseState)
    (hypothetical cleared : Bool) : SelectStmt → Except Error Query
  | .mk recursive ctes sortClause limitOffset limitCount lockingClause body => do
      env.check (.select (.mk recursive ctes sortClause limitOffset limitCount
        lockingClause body))
      let names := ctes.map CommonTableExpr.ctename
      let inner := pstate.addCtes names
      transformSelectBody env inner hypothetical cleared
        { cteList := do
            checkDuplicateCtes ctes
            analyzeCTEs env (if recursive then inner else pstate) recursive ctes
          modifying := ctes.any CommonTableExpr.isModifying
          sortClause := transformExprs env inner sortClause
          limitOffset := transformExprs env inner limitOffset
          limitCount := transformExprs env inner limitCount
          lockingClause := lockingClause } body

/-- The three shapes: `transformSelectStmt`, `transformValuesClause` and
`transformSetOperationStmt`. Only the first takes the flag. -/
def transformSelectBody (env : Analyzer) (pstate : ParseState)
    (hypothetical cleared : Bool) (clauses : Clauses) :
    SelectBody → Except Error Query
  | .simple distinctClause intoClause targetList fromClause whereClause groupClause
      havingClause windowClause => do
      let cteList ← clauses.cteList
      let rels ← transformFromClause env pstate fromClause
      let target ← transformExprs env pstate targetList
      let qual ← transformExprs env pstate whereClause
      let having ← transformExprs env pstate havingClause
      let sort ← clauses.sortClause
      let group ← transformExprs env pstate groupClause
      let distinct ← transformExprs env pstate distinctClause
      let limitOffset ← clauses.limitOffset
      let limitCount ← clauses.limitCount
      let window ← transformExprs env pstate windowClause
      return .mk .select hypothetical .none clauses.modifying
        (if cleared then none else intoClause) cteList rels.1
        (rels.2 ++ target ++ qual ++ having ++ sort ++ group ++ distinct ++
          limitOffset ++ limitCount ++ window) none
        (clauses.lockingClause.flatMap (rowMarksOf rels.1))
  | .values intoClause valuesLists => do
      let cteList ← clauses.cteList
      let subLinks ← transformRows env pstate valuesLists
      let sort ← clauses.sortClause
      let limitOffset ← clauses.limitOffset
      let limitCount ← clauses.limitCount
      rejectIf (!clauses.lockingClause.isEmpty)
        ⟨.featureNotSupported, "SELECT FOR UPDATE/SHARE cannot be applied to VALUES"⟩
      return .mk .select false .none clauses.modifying
        (if cleared then none else intoClause) cteList [.values subLinks]
        (sort ++ limitOffset ++ limitCount) none []
  | .setOp op all larg rarg => do
      let cteList ← clauses.cteList
      rejectIf (!clauses.lockingClause.isEmpty) lockingNotAllowed
      let l ← transformSetOperationTree env pstate true 0 larg
      let r ← transformSetOperationTree env pstate false l.2.length rarg
      let sort ← clauses.sortClause
      let limitOffset ← clauses.limitOffset
      let limitCount ← clauses.limitCount
      return .mk .select false .none clauses.modifying
        (if cleared then none else larg.leftmostInto) cteList (l.2 ++ r.2)
        (sort ++ limitOffset ++ limitCount)
        (some (.setOperation op all l.1 r.1)) []

/-- `transformSetOperationTree`: the tree, and the arms as range-table entries after the `base`
entries already there. A node with its own `ORDER BY` or `LIMIT` is a leaf; the `WITH` clause of any
other inner node is not looked at. -/
def transformSetOperationTree (env : Analyzer) (pstate : ParseState)
    (leftmost : Bool) (base : Nat) :
    SelectStmt → Except Error (SetOperationTree × List RangeTblEntry)
  | .mk recursive ctes sortClause limitOffset limitCount lockingClause body => do
      rejectIf (!leftmost && (SelectStmt.mk recursive ctes sortClause limitOffset
          limitCount lockingClause body).ownInto.isSome)
        ⟨.syntaxError, "INTO is only allowed on first SELECT of UNION/INTERSECT/EXCEPT"⟩
      rejectIf (!lockingClause.isEmpty) lockingNotAllowed
      let names := ctes.map CommonTableExpr.ctename
      let inner := pstate.child.addCtes names
      -- `parse_sub_analyze` on this very node.
      let leaf := setOperationLeaf base do
        env.check (.select (.mk recursive ctes sortClause limitOffset limitCount
          lockingClause body))
        transformSelectBody env inner false leftmost
          { cteList := do
              checkDuplicateCtes ctes
              analyzeCTEs env (if recursive then inner else pstate.child) recursive
                ctes
            modifying := ctes.any CommonTableExpr.isModifying
            sortClause := transformExprs env inner sortClause
            limitOffset := transformExprs env inner limitOffset
            limitCount := transformExprs env inner limitCount
            lockingClause := lockingClause } body
      match body with
      | .setOp op all larg rarg =>
        if !sortClause.isEmpty || !limitOffset.isEmpty || !limitCount.isEmpty then
          leaf
        else do
          let l ← transformSetOperationTree env pstate leftmost base larg
          let r ← transformSetOperationTree env pstate false (base + l.2.length)
            rarg
          return (.setOperation op all l.1 r.1, l.2 ++ r.2)
      | _ => leaf

/-- The source of an `INSERT`: nothing for `DEFAULT VALUES`, a bare `VALUES` list,
or a `SELECT` that becomes a sub-query. Only the last gets the flag. -/
def transformInsertSource (env : Analyzer) (pstate : ParseState)
    (hypothetical : Bool) :
    Option SelectStmt → Except Error (List RangeTblEntry × List Query)
  | none => .ok ([], [])
  | some (.mk recursive ctes sortClause limitOffset limitCount lockingClause body) =>
    let general := insertSelect (transformSelect env pstate.child hypothetical false
      (.mk recursive ctes sortClause limitOffset limitCount lockingClause body))
    match body with
    | .values into valuesLists =>
      if (SelectStmt.mk recursive ctes sortClause limitOffset limitCount
          lockingClause (.values into valuesLists)).isGeneral then general
      else do
        let subLinks ← transformRows env pstate valuesLists
        -- Several rows make a `VALUES` entry, one row is the target list.
        if valuesLists.length > 1 then return ([.values subLinks], [])
        else return ([], subLinks)
    | _ => general

/-- `transformStmt` on an optimizable statement. -/
def transformPreparable (env : Analyzer) (pstate : ParseState)
    (hypothetical : Bool) : PreparableStmt → Except Error Query
  | .select stmt => transformSelect env pstate hypothetical false stmt
  | .insert recursive ctes relation selectStmt returningList => do
      env.check (.insert recursive ctes relation selectStmt returningList)
      let inner := pstate.addCtes (ctes.map CommonTableExpr.ctename)
      checkDuplicateCtes ctes
      let cteList ← analyzeCTEs env (if recursive then inner else pstate) recursive
        ctes
      let relid ← env.relation relation
      let source ← transformInsertSource env inner hypothetical selectStmt
      let returning ← transformExprs env inner returningList
      return .mk .insert hypothetical .none (ctes.any CommonTableExpr.isModifying)
        none cteList (.relation relid false relation.refname :: source.1)
        (source.2 ++ returning) none []
  | .update recursive ctes relation targetList fromClause whereClause
      returningList => do
      env.check (.update recursive ctes relation targetList fromClause whereClause
        returningList)
      let inner := pstate.addCtes (ctes.map CommonTableExpr.ctename)
      checkDuplicateCtes ctes
      let cteList ← analyzeCTEs env (if recursive then inner else pstate) recursive
        ctes
      let relid ← env.relation relation
      let rels ← transformFromClause env inner fromClause
      let target ← transformExprs env inner targetList
      let qual ← transformExprs env inner whereClause
      let returning ← transformExprs env inner returningList
      return .mk .update hypothetical .none (ctes.any CommonTableExpr.isModifying)
        none cteList (.relation relid relation.inh relation.refname :: rels.1)
        (rels.2 ++ target ++ qual ++ returning) none []
  | .delete recursive ctes relation usingClause whereClause returningList => do
      env.check (.delete recursive ctes relation usingClause whereClause
        returningList)
      let inner := pstate.addCtes (ctes.map CommonTableExpr.ctename)
      checkDuplicateCtes ctes
      let cteList ← analyzeCTEs env (if recursive then inner else pstate) recursive
        ctes
      let relid ← env.relation relation
      let rels ← transformFromClause env inner usingClause
      let qual ← transformExprs env inner whereClause
      let returning ← transformExprs env inner returningList
      return .mk .delete hypothetical .none (ctes.any CommonTableExpr.isModifying)
        none cteList (.relation relid relation.inh relation.refname :: rels.1)
        (rels.2 ++ qual ++ returning) none []

end

/-! ## The special cases and the entry points -/

/-- The query as it stands under a cursor. -/
def Query.withUtility (utilityStmt : UtilityStmt) : Query → Query
  | .mk commandType hypothetical _ hasModifyingCTE intoClause cteList rtable subLinks
      setOperations rowMarks =>
      .mk commandType hypothetical utilityStmt hasModifyingCTE intoClause cteList
        rtable subLinks setOperations rowMarks

/-- The checks of `transformDeclareCursorStmt` on the analysed query. -/
def checkCursorQuery (options : CursorOptions) (result : Query) :
    Except Error Unit := do
  expectSelect result "unexpected non-SELECT command in DECLARE CURSOR"
  rejectInto result .invalidCursorDefinition "DECLARE CURSOR cannot specify INTO"
  rejectIf result.hasModifyingCTE ⟨.featureNotSupported,
    "DECLARE CURSOR must not contain data-modifying statements in WITH"⟩
  rejectIf (!result.rowMarks.isEmpty && options.hold) ⟨.featureNotSupported,
    "DECLARE CURSOR WITH HOLD ... FOR UPDATE/SHARE is not supported"⟩
  rejectIf (!result.rowMarks.isEmpty && options.scroll) ⟨.featureNotSupported,
    "DECLARE SCROLL CURSOR ... FOR UPDATE/SHARE is not supported"⟩
  rejectIf (!result.rowMarks.isEmpty && options.insensitive) ⟨.featureNotSupported,
    "DECLARE INSENSITIVE CURSOR ... FOR UPDATE/SHARE is not supported"⟩

def transformDeclareCursorStmt (env : Analyzer) (pstate : ParseState)
    (stmt : DeclareCursorStmt) (hypothetical : Bool) : Except Error Query := do
  rejectIf (stmt.options.scroll && stmt.options.noScroll)
    ⟨.invalidCursorDefinition, "cannot specify both SCROLL and NO SCROLL"⟩
  -- `result->hypothetical = hypothetical` before `result` points anywhere.
  env.strayStore
  let result ← transformSelect env pstate hypothetical false stmt.query
  checkCursorQuery stmt.options result
  return result.withUtility (.declareCursor stmt.portalname stmt.options)

/-- A utility `Query`, the flag being what `makeNode` left. -/
def utilityQuery (utilityStmt : UtilityStmt) : Query :=
  .mk .utility false utilityStmt false none [] [] [] none []

/-- `transformStmt` on the statement under an `EXPLAIN`. -/
def transformExplainable (env : Analyzer) (pstate : ParseState)
    (hypothetical : Bool) : ExplainableStmt → Except Error Query
  | .preparable stmt => transformPreparable env pstate hypothetical stmt
  | .declareCursor stmt => transformDeclareCursorStmt env pstate stmt hypothetical
  | .execute name params into => .ok (utilityQuery (.execute name params into))

def transformExplainStmt (env : Analyzer) (pstate : ParseState)
    (stmt : ExplainStmt) : Except Error Query := do
  let query ← transformExplainable env pstate stmt.hypothetical stmt.query
  return .mk .utility stmt.hypothetical
    (.explain query stmt.options stmt.hypothetical) false none [] [] [] none []

def transformStmt (env : Analyzer) (pstate : ParseState) (parseTree : RawStmt)
    (hypothetical : Bool) : Except Error Query :=
  match parseTree with
  | .preparable stmt => transformPreparable env pstate hypothetical stmt
  | .declareCursor stmt => transformDeclareCursorStmt env pstate stmt hypothetical
  | .explain stmt => transformExplainStmt env pstate stmt
  | .index stmt => .ok (utilityQuery (.raw (.index stmt)))
  | .utility tag indexes statements =>
    .ok (utilityQuery (.raw (.utility tag indexes statements)))

def topState : ParseState := ⟨[], false⟩

def parseAnalyze (env : Analyzer) (parseTree : RawStmt) (hypothetical : Bool) :
    Except Error Query :=
  transformStmt env topState parseTree hypothetical

def parseAnalyzeVarparams (env : Analyzer) (parseTree : RawStmt) :
    Except Error Query :=
  transformStmt env topState parseTree false

end PgTuning.Backend
