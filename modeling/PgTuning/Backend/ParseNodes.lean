import Mathlib.Logic.Basic

/-!
# Parse trees and query trees

The raw parse trees the grammar builds and the `Query` trees parse analysis makes of them, as far as
the `hypothetical` flag is concerned: every place where a statement can occur inside another one,
every `hypothetical` field, and the fields that decide how a statement is analysed.

The types follow the grammar, so that a tree the grammar cannot build cannot be built here either:
an `EXPLAIN` stands at the top only, a cursor is over a `SELECT`, and a `SELECT` is a plain one, a
`VALUES` list or a set operation (in C one `SelectStmt` node, told apart by `valuesLists` and `op`).

An expression matters only through the sub-selects it holds; everything else in it is a `leaf` or a
`node` over its arguments. An absent clause is the empty list.
-/

namespace PgTuning.Backend

abbrev Oid : Type := Nat

/-! ## Errors -/

/-- The error codes the modelled functions report; `internalError` is `elog`. -/
inductive ErrCode where
  | syntaxError
  | featureNotSupported
  | invalidCursorDefinition
  | duplicateAlias
  | undefinedTable
  | undefinedObject
  | duplicateObject
  | duplicateTable
  | invalidObjectDefinition
  | tooManyColumns
  | duplicateColumn
  | insufficientPrivilege
  | wrongObjectType
  | invalidTableDefinition
  | invalidForeignKey
  | objectNotInPrerequisiteState
  | dependentObjectsStillExist
  | internalError
  /-- `FloatExceptionHandler` took a `SIGFPE`. -/
  | floatingPointException
deriving DecidableEq, Repr

structure Error where
  code : ErrCode
  message : String
deriving DecidableEq, Repr

/-! ## Raw parse trees -/

structure RangeVar where
  schemaname : Option String
  relname : String
  inh : Bool
  aliasname : Option String
deriving DecidableEq, Repr

/-- The name a relation goes by in its query. -/
def RangeVar.refname (r : RangeVar) : String := r.aliasname.getD r.relname

structure IntoClause where
  rel : RangeVar
  colNames : List String
deriving DecidableEq, Repr

structure LockingClause where
  lockedRels : List RangeVar
  forUpdate : Bool
  noWait : Bool
deriving DecidableEq, Repr

inductive SetOperation where
  | union
  | intersect
  | except
deriving DecidableEq, Repr

mutual

inductive Expr where
  | leaf (text : String)
  | node (args : List Expr)
  | subLink (testexpr : List Expr) (subselect : SelectStmt)

inductive FromItem where
  | rangeVar (relation : RangeVar)
  | rangeSubselect (subquery : SelectStmt) (aliasname : String)
  | rangeFunction (funccallnode : Expr)
  | joinExpr (larg rarg : FromItem) (quals : List Expr)

/-- A `SELECT` of any shape with the clauses attached to it. -/
inductive SelectStmt where
  | mk (recursive : Bool) (ctes : List CommonTableExpr) (sortClause : List Expr)
      (limitOffset limitCount : List Expr) (lockingClause : List LockingClause)
      (body : SelectBody)

inductive SelectBody where
  | simple (distinctClause : List Expr) (intoClause : Option IntoClause)
      (targetList : List Expr) (fromClause : List FromItem)
      (whereClause groupClause havingClause windowClause : List Expr)
  | values (intoClause : Option IntoClause) (valuesLists : List (List Expr))
  | setOp (op : SetOperation) (all : Bool) (larg rarg : SelectStmt)

inductive CommonTableExpr where
  | mk (ctename : String) (ctequery : PreparableStmt)

/-- The statements that can be prepared, and that can stand in a `WITH` list. -/
inductive PreparableStmt where
  | select (stmt : SelectStmt)
  | insert (recursive : Bool) (ctes : List CommonTableExpr) (relation : RangeVar)
      (selectStmt : Option SelectStmt) (returningList : List Expr)
  | update (recursive : Bool) (ctes : List CommonTableExpr) (relation : RangeVar)
      (targetList : List Expr) (fromClause : List FromItem)
      (whereClause returningList : List Expr)
  | delete (recursive : Bool) (ctes : List CommonTableExpr) (relation : RangeVar)
      (usingClause : List FromItem) (whereClause returningList : List Expr)

end

/-- The options of `DECLARE CURSOR` that parse analysis looks at. -/
structure CursorOptions where
  scroll : Bool
  noScroll : Bool
  hold : Bool
  insensitive : Bool
deriving DecidableEq, Repr

structure DeclareCursorStmt where
  portalname : String
  options : CursorOptions
  query : SelectStmt

/-- What `EXPLAIN` takes. `CREATE TABLE AS` is a `SELECT` with an `INTO`
clause. -/
inductive ExplainableStmt where
  | preparable (stmt : PreparableStmt)
  | declareCursor (stmt : DeclareCursorStmt)
  | execute (name : String) (params : List Expr) (into : Option IntoClause)

structure ExplainStmt where
  query : ExplainableStmt
  options : List String
  hypothetical : Bool

/-- `CREATE [HYPOTHETICAL] [UNIQUE] INDEX [CONCURRENTLY]`. -/
structure IndexStmt where
  idxname : Option String
  relation : RangeVar
  accessMethod : String
  indexParams : List Expr
  whereClause : List Expr
  hypothetical : Bool
  unique : Bool
  primary : Bool
  isconstraint : Bool
  concurrent : Bool

/-- A raw parse tree. `utility` stands for every other statement, with the index
definitions and the statements its node holds (`CREATE SCHEMA`, `CREATE VIEW`,
`CREATE RULE`, `PREPARE`, `COPY` and so on). -/
inductive RawStmt where
  | preparable (stmt : PreparableStmt)
  | declareCursor (stmt : DeclareCursorStmt)
  | explain (stmt : ExplainStmt)
  | index (stmt : IndexStmt)
  | utility (tag : String) (indexes : List IndexStmt)
      (statements : List PreparableStmt)

/-! ## Query trees -/

inductive CmdType where
  | select
  | insert
  | update
  | delete
  | utility
deriving DecidableEq, Repr

/-- The tree of set operations over range-table entries. -/
inductive SetOperationTree where
  | rangeTblRef (rtindex : Nat)
  | setOperation (op : SetOperation) (all : Bool) (larg rarg : SetOperationTree)
deriving DecidableEq, Repr

mutual

/-- A `Query` node. `subLinks` are the queries of the sub-links in its
expressions. -/
inductive Query where
  | mk (commandType : CmdType) (hypothetical : Bool) (utilityStmt : UtilityStmt)
      (hasModifyingCTE : Bool) (intoClause : Option IntoClause)
      (cteList : List CteEntry) (rtable : List RangeTblEntry)
      (subLinks : List Query) (setOperations : Option SetOperationTree)
      (rowMarks : List Nat)

inductive CteEntry where
  | mk (ctename : String) (ctequery : Query)

inductive RangeTblEntry where
  | relation (relid : Oid) (inh : Bool) (aliasname : String)
  | subquery (subquery : Query) (aliasname : String)
  | join
  | function (subLinks : List Query)
  | values (subLinks : List Query)
  | cte (ctename : String) (aliasname : String)

/-- The statement hung under a `Query`, if any. -/
inductive UtilityStmt where
  | none
  | explain (query : Query) (options : List String) (hypothetical : Bool)
  | declareCursor (portalname : String) (options : CursorOptions)
  | raw (stmt : RawStmt)
  | execute (name : String) (params : List Expr) (into : Option IntoClause)

end

namespace Query

def commandType : Query → CmdType
  | mk commandType .. => commandType

def hypothetical : Query → Bool
  | mk _ hypothetical .. => hypothetical

def utilityStmt : Query → UtilityStmt
  | mk _ _ utilityStmt .. => utilityStmt

def hasModifyingCTE : Query → Bool
  | mk _ _ _ hasModifyingCTE .. => hasModifyingCTE

def intoClause : Query → Option IntoClause
  | mk _ _ _ _ intoClause .. => intoClause

def cteList : Query → List CteEntry
  | mk _ _ _ _ _ cteList .. => cteList

def rtable : Query → List RangeTblEntry
  | mk _ _ _ _ _ _ rtable .. => rtable

def subLinks : Query → List Query
  | mk _ _ _ _ _ _ _ subLinks .. => subLinks

def setOperations : Query → Option SetOperationTree
  | mk _ _ _ _ _ _ _ _ setOperations _ => setOperations

def rowMarks : Query → List Nat
  | mk _ _ _ _ _ _ _ _ _ rowMarks => rowMarks

end Query

/-- The node the planner returns, as far as it is copied with its flag. -/
structure PlannedStmt where
  commandType : CmdType
  hypothetical : Bool
  transientPlan : Bool
  rtable : List RangeTblEntry
  utilityStmt : UtilityStmt

end PgTuning.Backend
