import Mathlib.Algebra.Ring.Rat
import PgTuning.Advisor.Index

/-!
# The advisor's connection and the what-if operations

`DBConnection` talks to the advisor database, in which only index *definitions* matter: a
`CREATE [HYPOTHETICAL] INDEX` fails when the name is taken, a `DROP [HYPOTHETICAL] INDEX` when there
is no such index of that kind. The server is a parameter: it decides which other statements fail and
what `EXPLAIN` prints, and may look at everything to do so.

On top of it stand the operations of `IndexTuner` that price configurations: `simulateConfig`,
`whatIf`, `costOf`, `costOfCreating` and `changeConfig`. An exception leaves the state as it is at
the throw (`Attempt`). Console output is not modelled.
-/

namespace PgTuning.Advisor

open PgTuning.Lib PgTuning.Lib.Attempt Function

/-- How a method of the advisor can end other than by returning. `unfinished` is no exception of the
program: a loop was still running when the passes granted to the model were used up. -/
inductive JavaException where
  | nullPointer
  | indexOutOfBounds
  | sql
  | unfinished
deriving DecidableEq, Repr

/-! ## Use of references -/

section References

variable {σ α : Type}

/-- Use of a reference that may be `null`. -/
def nonNull : Option α → Attempt JavaException σ α
  | some a => pure a
  | none => throw .nullPointer

def elemAt (xs : List α) (i : Nat) : Attempt JavaException σ α :=
  match xs[i]? with
  | some a => pure a
  | none => throw .indexOutOfBounds

end References

/-! ## State -/

structure DbIndex where
  name : JString
  hypothetical : Bool
deriving DecidableEq, Repr

/-- The state the advisor shares through its connection: the database, the
list `curHypConfig`, and the two mutable fields of the index objects. -/
structure Connection where
  dbName : JString
  present : List DbIndex
  curHypConfig : List Index
  name : Index → JString
  materialized : Index → Bool
  /-- The next object identity `new Index` hands out. -/
  nextRef : Nat
  clock : Nat

/-- The database server behind the connection: which statements it refuses,
and the total cost on the first line of an `EXPLAIN` (`none` when the statement
fails or prints no cost). -/
structure Server where
  fails : JString → Connection → Bool
  explain : JString → Connection → Option ℚ

abbrev JavaM (α : Type) : Type := Attempt JavaException Connection α

/-- The statements `Index.create` and `Index.drop` send. -/
inductive Stmt where
  | createIndex (hypothetical : Bool) (name tableName columnNames : JString)
  | dropIndex (hypothetical : Bool) (name : JString)
deriving DecidableEq, Repr

def Stmt.sql : Stmt → JString
  | .createIndex hypothetical name tableName columnNames =>
    js (if hypothetical then "CREATE HYPOTHETICAL INDEX ".toList
      else "CREATE INDEX ".toList) ++ name ++ js " ON ".toList ++ tableName ++
      js " (".toList ++ columnNames ++ js ")".toList
  | .dropIndex hypothetical name =>
    js (if hypothetical then "DROP HYPOTHETICAL INDEX ".toList
      else "DROP INDEX ".toList) ++ name

namespace Connection

@[simps]
def tick (con : Connection) : Connection := { con with clock := con.clock + 1 }

@[simps]
def setMaterialized (con : Connection) (ix : Index) (b : Bool) : Connection :=
  { con with materialized := update con.materialized ix b }

@[simps]
def setName (con : Connection) (ix : Index) (n : JString) : Connection :=
  { con with name := update con.name ix n }

@[simps]
def addIndex (con : Connection) (e : DbIndex) : Connection :=
  { con with present := e :: con.present }

@[simps]
def removeIndex (con : Connection) (e : DbIndex) : Connection :=
  { con with present := con.present.filter (· ≠ e) }

end Connection

/-! ## `DBConnection` -/

variable (server : Server)

/-- `execStmt`: the statement is counted, and either changes the database or
throws. -/
def execStmt (stmt : Stmt) : JavaM Unit := fun con =>
  if server.fails stmt.sql con then .error .sql con.tick
  else match stmt with
    | .createIndex hypothetical name _ _ =>
      if con.present.any (·.name == name) then .error .sql con.tick
      else .ok () (con.tick.addIndex ⟨name, hypothetical⟩)
    | .dropIndex hypothetical name =>
      if ⟨name, hypothetical⟩ ∈ con.present then
        .ok () (con.tick.removeIndex ⟨name, hypothetical⟩)
      else .error .sql con.tick

/-- `execExplain`: the cost, or `null` when the statement failed. -/
def execExplain (query : JString) : JavaM (Option ℚ) :=
  fun con =>
    .ok (server.explain (js "explain hypothetical ".toList ++ query) con) con.tick

/-! ## `Index.drop` and `Index.create` -/

namespace Index

def drop (ix : Index) : JavaM Unit := do
  let con ← get
  if con.materialized ix = false then pure ()
  else if con.dbName = ix.dbname then do
    execStmt server (.dropIndex ix.hypothetical (con.name ix))
    modify (·.setMaterialized ix false)
  else pure ()

/-- The name an unnamed index gets from its table and columns. -/
def defaultName (ix : Index) : JString :=
  js (if ix.hypothetical then "hix_".toList else "ix_".toList) ++ ix.tableName ++
    js ['_'] ++ ix.getColumnNames

def nameFor (con : Connection) (ix : Index) : JString :=
  if con.name ix = [] then ix.defaultName else con.name ix

def create (ix : Index) : JavaM Unit := do
  let con ← get
  if con.materialized ix = true then pure ()
  else if con.dbName = ix.dbname then do
    modify (·.setName ix (ix.nameFor con))
    execStmt server (.createIndex ix.hypothetical (ix.nameFor con) ix.tableName
      ix.getColumnNames)
    modify (·.setMaterialized ix true)
  else pure ()

end Index

/-! ## `IndexTuner`: pricing configurations -/

/-- A configuration argument: a list of its own, or the connection's own
`curHypConfig` list, which `simulateConfig` clears. -/
inductive ConfigRef where
  | list (ixs : List Index)
  | curHypConfig

def ConfigRef.read (con : Connection) : ConfigRef → List Index
  | .list ixs => ixs
  | .curHypConfig => con.curHypConfig

/-- One pass of the second loop of `simulateConfig`. -/
def simulateIndex (i : Index) : JavaM Unit :=
  if i.hypothetical = true then do
    i.create server
    modify fun con => { con with curHypConfig := con.curHypConfig ++ [i] }
  else pure ()

def simulateConfig (configuration : ConfigRef) : JavaM Unit := do
  let con ← get
  forM con.curHypConfig (Index.drop server)
  modify fun con => { con with curHypConfig := [] }
  -- Read only now: an alias of `curHypConfig` has just been emptied.
  let con ← get
  forM (configuration.read con) (simulateIndex server)

def whatIf (query : JString) (configuration : ConfigRef) : JavaM (Option ℚ) := do
  simulateConfig server configuration
  execExplain server query

def unbox {σ : Type} : Option ℚ → Attempt JavaException σ ℚ
  | some t => pure t
  | none => throw .nullPointer

theorem unbox_keeps {σ : Type} {P : σ → Prop} (t : Option ℚ) : Keeps P (unbox t) := by
  cases t with
  | none => exact keeps_throw _
  | some t => exact keeps_pure t

def costOf (workload : List JString) (configuration : ConfigRef) : JavaM ℚ := do
  simulateConfig server configuration
  workload.foldlM (fun cst query => do
    let t ← execExplain server query
    return cst + (← unbox t)) 0

/-- The query whose cost change prices the creation of an index. -/
def creationQuery (ix : Index) : JString :=
  js "SELECT ".toList ++ ix.getColumnNames ++ js " FROM ".toList ++
    ix.tableName ++ js " ORDER BY ".toList ++ ix.getColumnNames

def costOfCreating (index : Index) : JavaM ℚ := do
  let preIndexCost ← execExplain server (creationQuery index)
  index.create server
  let postIndexCost ← execExplain server (creationQuery index)
  index.drop server
  return (← unbox preIndexCost) - (← unbox postIndexCost)

/-- Whether `changeConfig` takes `curI` for `tarI`. -/
def sameIndex (curI tarI : Index) : Bool :=
  curI.equalsNamed tarI.dbname tarI.tableName tarI.getColumnNames

variable (cur target : List Index)

/-- The members of `target` that `cur` has, once for each match. -/
def commonInd : List Index :=
  target.flatMap fun tarI =>
    (cur.filter fun curI => sameIndex curI tarI).map fun _ => tarI

theorem mem_of_mem_commonInd {cur target : List Index} {ix : Index} (h : ix ∈ commonInd cur target) :
    ix ∈ target := by
  obtain ⟨tarI, hTar, hMem⟩ := List.mem_flatMap.mp h
  obtain ⟨-, -, rfl⟩ := List.mem_map.mp hMem
  exact hTar

/-- The members of `target` that `cur` does not have. -/
def newInd : List Index :=
  target.filter fun tarI => !cur.any fun curI => sameIndex curI tarI

def changeConfig : JavaM ℚ := do
  simulateConfig server (.list (commonInd cur target))
  (newInd cur target).foldlM (fun cost index => do
    return cost + (← costOfCreating server index)) 0

/-! ## A small setting for concrete runs -/

def freshConnection : Connection where
  dbName := js "it_dellstore2".toList
  present := []
  curHypConfig := []
  name := fun _ => []
  materialized := fun _ => false
  nextRef := 1
  clock := 0

def calmServer : Server where
  fails := fun _ _ => false
  explain := fun _ _ => some 1

def ordersIndex : Index :=
  Index.new 0 (js "orders".toList) (js "customerid".toList) true
    (js "it_dellstore2".toList)

def customersIndex : Index :=
  Index.new 1 (js "customers".toList) (js "customerid".toList) true
    (js "it_dellstore2".toList)

end PgTuning.Advisor
