import Mathlib.Data.List.Perm.Basic
import PgTuning.Advisor.Connection

/-!
# Selecting candidate indexes

For each query of the workload `CISelection` extracts the columns its conditions compare
(`extractIndexes`) and lets `greedymk` pick a good configuration among them; `enumerate` runs
`greedymk` once more on what was picked.

Three things are not decided by the source and are parameters (`Environment`): the SQL parser, which
is third-party code and hands over the conditions of a query in the order of its traversal; the
iteration order of a `HashSet` of numbers; and that of the `HashMap` of costs, whose keys hash by
object identity. Both orders may change from call to call and are only known to visit every entry
once.
-/

namespace PgTuning.Advisor

open PgTuning.Lib PgTuning.Lib.Attempt

/-! ## What the parser returns -/

inductive EExpressionType where
  | simple_comparison_t
  | group_comparison_t
  | in_t
  | other
deriving DecidableEq, Repr

/-- A node of a condition: its type and the text of its left operand. -/
structure TExpression where
  expressionType : EExpressionType
  leftOperand : JString

inductive ParseOutcome where
  | failed
  | noWhereClause
  /-- The nodes of the condition in the order they are visited. -/
  | condition (nodes : List TExpression)

/-- The iteration orders and the parser the advisor runs with. -/
structure Environment where
  server : Server
  parse : JString → ParseOutcome
  setOrder : Nat → List Nat → List Nat
  setOrder_perm : ∀ clock xs, (setOrder clock xs).Perm xs
  mapOrder : Nat → List (ℚ × List Index) → List (ℚ × List Index)
  mapOrder_perm : ∀ clock xs, (mapOrder clock xs).Perm xs
  /-- `Math.sqrt(i + 1.0)`. -/
  sqrtSucc : Nat → ℚ

/-! ## `extractIndexes` -/

def isCompareCondition (t : EExpressionType) : Bool :=
  t == .simple_comparison_t || t == .group_comparison_t || t == .in_t

/-- `new Index(0, "", table, 0, columns, "", true, dbname, false)`. -/
def newIndex (tableName columnNames dbname : JString) : JavaM Index := fun con =>
  let ix := Index.new con.nextRef tableName columnNames true dbname
  .ok ix (({ con with nextRef := con.nextRef + 1 }.setName ix []).setMaterialized
    ix false)

/-- `exprVisit`: a comparison contributes the index on its left operand, which
must have the form `table.column`. -/
def exprVisit (dbname : JString) (indexes : List Index) (lcexpr : TExpression) :
    JavaM (List Index) :=
  if isCompareCondition lcexpr.expressionType = true then do
    let lea := splitDots lcexpr.leftOperand
    let tableName ← elemAt lea 0
    let columnNames ← elemAt lea 1
    let ix ← newIndex tableName columnNames dbname
    return indexes ++ [ix]
  else pure indexes

variable (env : Environment)

/-- `extractIndexes`: `null` when the query does not parse. -/
def extractIndexes (query : JString) : JavaM (Option (List Index)) :=
  match env.parse query with
  | .failed => pure none
  | .noWhereClause => throw .nullPointer
  | .condition nodes => do
      let indexes ← nodes.foldlM (exprVisit (js "it_dellstore2".toList)) []
      return some indexes

/-! ## `greedymk` -/

/-- The recursion of `getSubsets` over the rest of the super set, the branch that
takes the next element first. -/
def getSubsets {α : Type} (k : Int) : List α → List α → List (List α)
  | [], current => if current.length = k then [current] else []
  | x :: rest, current =>
    if current.length = k then [current]
    else getSubsets k rest (current ++ [x]) ++ getSubsets k rest current

/-- The members of a subset of positions, in the order the set is iterated. -/
def pickAll (CandIndexes : List Index) (subset : List Nat) : JavaM (List Index) :=
  subset.mapM fun idx => elemAt CandIndexes idx

/-- The sub-configurations of size `m`. -/
def subConfigs (CandIndexes : List Index) (m : Nat) : JavaM (List (List Index)) :=
  (getSubsets m (List.range CandIndexes.length) []).mapM fun subset => do
    let con ← get
    pickAll CandIndexes (env.setOrder con.clock subset)

/-- The value of the first entry of the tree map: an entry with a smaller cost
takes its place, and one with the same cost overrides its value. -/
def firstEntry (entries : List (ℚ × List Index)) : Option (List Index) :=
  (entries.foldl (fun best (entry : ℚ × List Index) =>
    match best with
    | none => some entry
    | some (c, S) =>
      if entry.1 < c then some entry
      else if entry.1 = c then some (c, entry.2) else some (c, S)) none).map
    Prod.snd

/-- The `while` loop: `fuel` bounds its passes, each of which adds a member. -/
def greedyGrow (env : Environment) (workload : List JString) (CIs : List Index)
    (minCost mCost : ℚ) (k : Nat) : Nat → List Index → JavaM (List Index)
  | 0, S => pure S
  | fuel + 1, S =>
    if S.length < k then do
      let minI ← CIs.foldlM (fun minI I => do
        let costd ← costOf env.server workload (.list (S ++ [I]))
        return if costd < minCost then some I else minI) none
      -- `mCost` is a copy of `minCost` and neither is updated in the loop.
      if mCost ≤ minCost then pure S
      else do
        let I ← nonNull minI
        greedyGrow env workload CIs minCost mCost k fuel (S ++ [I])
    else pure S

/-- `greedymk`: `null` when there is no sub-configuration. -/
def greedymk (workload : List JString)
    (CandIndexes : List Index) (m k : Nat) : JavaM (Option (List Index)) := do
  let subCIs ← subConfigs env CandIndexes m
  let cost ← subCIs.mapM fun CIset => do
    let cst ← costOf env.server workload (.list CIset)
    return (cst, CIset)
  let con ← get
  match firstEntry (env.mapOrder con.clock cost) with
  | none => pure none
  | some S => do
      let CIs := CandIndexes.filter fun I => !(S.contains I)
      let minCost ← costOf env.server workload (.list S)
      let S ← greedyGrow env workload CIs minCost minCost k k S
      return some S

def enumerate (k : Nat) (CI : List Index) (W : List JString) : JavaM (Option (List Index)) :=
  greedymk env W CI 2 k

/-- `CISelection`: adding a `null` list throws. -/
def CISelection (workload : List JString) : JavaM (List Index) :=
  workload.foldlM (fun CI query => do
    let extracted ← extractIndexes env query
    let Is ← nonNull extracted
    let picked ← enumerate env 10 Is [query]
    let picked ← nonNull picked
    return CI ++ picked) []

end PgTuning.Advisor
