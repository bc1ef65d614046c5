import PgTuning.Backend.IndexCommands
import PgTuning.Lib.Outcome

/-!
# Constraints that rest on an index

`ALTER TABLE ... ADD {PRIMARY KEY | UNIQUE}`, with a column list or `USING INDEX`,
`ALTER TABLE ... ADD FOREIGN KEY`, and `CREATE TABLE` with key constraints and
`LIKE ... INCLUDING INDEXES` clauses. None of the tests an existing index has to pass looks at
`indishypothetical`, and an index cloned by `LIKE` keeps the flag.

Columns are given by their numbers. Triggers, `NOT NULL` marks and comments are left out.
-/

namespace PgTuning.Backend

open PgTuning.Lib
open PgTuning.Lib.Attempt
open PgTuning.Lib.Outcome

/-! ## Statements -/

/-- `CREATE [HYPOTHETICAL] [UNIQUE] INDEX`: what the grammar leaves unset. -/
structure CreateIndexStmt extends IndexDef where
  exclusion_unset : exclusion = false
  primary_unset : primary = false
  isconstraint_unset : isconstraint = false
  concurrent_unset : concurrent = false

inductive KeyType where
  | primary
  | unique
  | exclusion
deriving DecidableEq, Repr

/-- A `PRIMARY KEY`, `UNIQUE` or `EXCLUDE` constraint, with its columns or with the
name of an index. -/
structure KeyConstraint where
  contype : KeyType
  conname : Option String
  accessMethod : AccessMethod
  columns : List IndexColumn
  indexprs : List String
  whereClause : List String
  deferrable : Bool
  initdeferred : Bool
  indexname : Option String
deriving DecidableEq, Repr

structure ForeignKey where
  relation : String
  conname : Option String
  pktable : String
  fkAttrs : List Int
  /-- Empty when the statement names no columns. -/
  pkAttrs : List Int
  deferrable : Bool
  initdeferred : Bool
  skipValidation : Bool
deriving DecidableEq, Repr

/-- A `LIKE` clause; `attmap` gives the columns their numbers in the new table. -/
structure LikeClause where
  relation : String
  includingIndexes : Bool
  attmap : Int → Int

structure CreateStmt where
  relname : String
  ifNotExists : Bool
  likes : List LikeClause
  constraints : List KeyConstraint

/-- What the commands ask of the rest of the system. -/
structure DdlServer extends Server where
  attname : Oid → Int → String
  chooseConstraintName : Catalog → ForeignKey → String
  /-- Persistence of the tables, and the columns. -/
  checkForeignKey : ForeignKey → Option Error
  checkFkeyPermissions : ForeignKey → Option Error
  /-- Equality operators for the columns. -/
  checkFkeyOperators : ForeignKey → PgIndex → Option Error
  validateForeignKey : ForeignKey → Option Error
  /-- Schema rights, columns and options of a new table. -/
  checkTable : CreateStmt → Option Error
  maySelect : Oid → Bool
  /-- Whether two definitions agree in the names of the index columns and in the
  exclusion operators. -/
  sameNames : IndexDef → IndexDef → Bool

/-! ## Key constraints -/

/-- The first key that has occurred before. -/
def repeatedKey (seen : List Int) : List Int → Option Int
  | [] => none
  | key :: keys => if seen.contains key then some key else repeatedKey (key :: seen) keys

/-- "Check for PRIMARY KEY(foo, foo)". -/
def checkKeys (attname : Int → String) (contype : KeyType) (keys : List Int) :
    Except Error Unit :=
  match repeatedKey [] keys with
  | none => .ok ()
  | some key => .error ⟨.duplicateColumn, "column \"" ++ attname key ++
      "\" appears twice in " ++
      (if contype = .primary then "primary key" else "unique") ++ " constraint"⟩

/-- `transformIndexConstraint` for a constraint with a column list. -/
def transformIndexConstraint (relname : String) (c : KeyConstraint) : IndexDef where
  relation := relname
  idxname := c.conname
  accessMethod := c.accessMethod
  columns := c.columns
  indexprs := c.indexprs
  whereClause := c.whereClause
  exclusion := c.contype == .exclusion
  unique := c.contype != .exclusion
  primary := c.contype == .primary
  isconstraint := true
  deferrable := c.deferrable
  initdeferred := c.initdeferred
  concurrent := false
  -- A node fresh from makeNode.
  hypothetical := false

/-- The columns of a `PRIMARY KEY` or `UNIQUE` constraint are all different. -/
def checkColumns (attname : Int → String) (c : KeyConstraint) : Except Error Unit :=
  if c.contype = .exclusion then .ok ()
  else checkKeys attname c.contype (c.columns.map IndexColumn.attnum)

def IndexColumn.defaultSorting (column : IndexColumn) : Bool :=
  column.defaultOpclass && !column.descending && !column.nullsFirst

variable (cat : Catalog)

/-- The tests of `transformIndexConstraint` on the index of a `USING INDEX`. -/
def checkUsingIndex (heapRel : PgClass) (attname : Int → String)
    (c : KeyConstraint) (index : PgIndex) : Except Error Unit := do
  let name := "\"" ++ index.relname ++ "\""
  rejectIf (getIndexConstraint cat index.indexrelid).isSome
    ⟨.objectNotInPrerequisiteState,
      "index " ++ name ++ " is already associated with a constraint"⟩
  rejectIf (index.indrelid != heapRel.oid) ⟨.objectNotInPrerequisiteState,
    "index " ++ name ++ " does not belong to table \"" ++ heapRel.relname ++ "\""⟩
  rejectIf (!index.indisvalid)
    ⟨.objectNotInPrerequisiteState, "index " ++ name ++ " is not valid"⟩
  rejectIf (!index.indisready)
    ⟨.objectNotInPrerequisiteState, "index " ++ name ++ " is not ready"⟩
  rejectIf (!index.indisunique)
    ⟨.wrongObjectType, name ++ " is not a unique index"⟩
  rejectIf (!index.indexprs.isEmpty)
    ⟨.wrongObjectType, "index " ++ name ++ " contains expressions"⟩
  rejectIf (!index.indpred.isEmpty)
    ⟨.wrongObjectType, name ++ " is a partial index"⟩
  rejectIf (!index.indimmediate && !c.deferrable)
    ⟨.wrongObjectType, name ++ " is a deferrable index"⟩
  rejectIf (index.relam != .btree)
    ⟨.wrongObjectType, "index " ++ name ++ " is not a btree"⟩
  rejectIf (!index.columns.all IndexColumn.defaultSorting) ⟨.wrongObjectType,
    "index " ++ name ++ " does not have default sorting behavior"⟩
  checkKeys attname c.contype (index.columns.map IndexColumn.attnum)

/-- `RenameRelation` of an index that has no constraint yet. The name stands in
`pg_class`, so the version of the `pg_index` row stays. -/
def renameRelation (oid : Oid) (newrelname : String) : Exec Unit := do
  let s ← get
  throwIf (s.cat.relnameInUse newrelname) (relationExists newrelname)
  let renamed := s.cat.updateIndex oid (fun row => { row with relname := newrelname })
    fun _ => rfl
  set { s with cat := renamed }

def atExecAddIndexConstraint (server : Server) (rel : PgClass) (index : PgIndex)
    (c : KeyConstraint) : Exec Unit := do
  throwIf (!index.indisunique)
    ⟨.internalError, "index \"" ++ index.relname ++ "\" is not unique"⟩
  let constraintName := c.conname.getD index.relname
  runIf (constraintName != index.relname)
    (renameRelation index.indexrelid constraintName)
  let primary := c.contype == .primary
  runIf primary (indexCheckPrimaryKey rel index.columns true)
  indexConstraintCreate server rel index constraintName
    (if primary then .primary else .unique) c.deferrable c.initdeferred primary true

variable (server : DdlServer)

/-- `ALTER TABLE ... ADD` a key constraint. -/
def alterTableAddKey (relname : String) (c : KeyConstraint) : Exec Unit := do
  let rel ← heapOpenrv relname
  match c.indexname with
  | some indexname => do
      let index ← indexOpenNamed indexname
        ⟨.undefinedObject, "index \"" ++ indexname ++ "\" does not exist"⟩
      let s ← get
      ofExcept (checkUsingIndex s.cat rel (server.attname rel.oid) c index)
      atSimplePermissions server.toServer rel
      atExecAddIndexConstraint server.toServer rel index c
  | none => do
      ofExcept (checkColumns (server.attname rel.oid) c)
      atSimplePermissions server.toServer rel
      defineIndex server.toServer (transformIndexConstraint relname c) true false

/-! ## Foreign keys -/

def transformFkeyGetPrimaryKey (pkrel : PgClass) : Except Error PgIndex :=
  match (cat.relationGetIndexList pkrel.oid).find? PgIndex.indisprimary with
  | none => .error ⟨.undefinedObject,
      "there is no primary key for referenced table \"" ++ pkrel.relname ++ "\""⟩
  | some index =>
    if index.indimmediate then .ok index
    else .error ⟨.objectNotInPrerequisiteState,
      "cannot use a deferrable primary key for referenced table \"" ++
        pkrel.relname ++ "\""⟩

/-- A unique index on exactly these columns, in any order. -/
def PgIndex.isUniqueOn (index : PgIndex) (attnums : List Int) : Bool :=
  let indkey := index.columns.map IndexColumn.attnum
  indkey.length == attnums.length && index.indisunique && index.indpred.isEmpty &&
    index.indexprs.isEmpty && attnums.all indkey.contains &&
    indkey.all attnums.contains

def PgIndex.matchesKey (attnums : List Int) (index : PgIndex) : Bool :=
  index.isUniqueOn attnums && index.indimmediate

def transformFkeyCheckAttrs (pkrel : PgClass) (attnums : List Int) : Except Error PgIndex :=
  let indexes := cat.relationGetIndexList pkrel.oid
  match indexes.find? (PgIndex.matchesKey attnums) with
  | some index => .ok index
  | none =>
    if indexes.any fun index => index.isUniqueOn attnums then
      .error ⟨.objectNotInPrerequisiteState,
        "cannot use a deferrable unique constraint for referenced table \"" ++
          pkrel.relname ++ "\""⟩
    else .error ⟨.invalidForeignKey,
      "there is no unique constraint matching given keys for referenced table \"" ++
        pkrel.relname ++ "\""⟩

def fkeyIndex (pkrel : PgClass) (pkAttrs : List Int) : Except Error PgIndex :=
  if pkAttrs.isEmpty then transformFkeyGetPrimaryKey cat pkrel
  else transformFkeyCheckAttrs cat pkrel pkAttrs

def constraintNameIsUsed (relid : Oid) (conname : String) : Bool :=
  cat.pgConstraint.rows.any fun con =>
    con.conrelid == relid && con.conname == conname

def atAddForeignKeyConstraint (rel : PgClass) (conname : String) (fk : ForeignKey) : Exec Unit := do
  let pkrel ← heapOpenrv fk.pktable
  throwIf pkrel.isSystem ⟨.insufficientPrivilege,
    "permission denied: \"" ++ pkrel.relname ++ "\" is a system catalog"⟩
  throwSome (server.checkForeignKey fk)
  let s ← get
  let index ← ofExcept (fkeyIndex s.cat pkrel fk.pkAttrs)
  throwSome (server.checkFkeyPermissions fk)
  let pkattnum :=
    if fk.pkAttrs.isEmpty then index.columns.map IndexColumn.attnum else fk.pkAttrs
  throwIf (fk.fkAttrs.length != pkattnum.length) ⟨.invalidForeignKey,
    "number of referencing and referenced columns for foreign key disagree"⟩
  throwIf (index.relam != .btree)
    ⟨.internalError, "only b-tree indexes are supported for foreign keys"⟩
  throwSome (server.checkFkeyOperators fk index)
  createConstraintEntry server.toServer fun oid =>
    { oid := oid
      conname := conname
      contype := .foreign
      condeferrable := fk.deferrable
      condeferred := fk.initdeferred
      conrelid := rel.oid
      conindid := index.indexrelid
      confrelid := some pkrel.oid
      conkey := fk.fkAttrs
      confkey := pkattnum }
  throwSome (if fk.skipValidation then none else server.validateForeignKey fk)

/-- `ALTER TABLE ... ADD FOREIGN KEY`. -/
def alterTableAddForeignKey (fk : ForeignKey) : Exec Unit := do
  let rel ← heapOpenrv fk.relation
  atSimplePermissions server.toServer rel
  let s ← get
  let conname := fk.conname.getD (server.chooseConstraintName s.cat fk)
  throwIf (fk.conname.isSome && constraintNameIsUsed s.cat rel.oid conname)
    ⟨.duplicateObject, "constraint \"" ++ conname ++ "\" for relation \"" ++
      rel.relname ++ "\" already exists"⟩
  atAddForeignKeyConstraint server rel conname fk

/-! ## New tables -/

def generateClonedIndexStmt (relname : String) (attmap : Int → Int) (index : PgIndex) : IndexDef :=
  let con :=
    if index.indisprimary || index.indisunique || index.indisexclusion then
      getIndexConstraint cat index.indexrelid
    else none
  { relation := relname
    idxname := none
    accessMethod := index.relam
    columns := index.columns.map fun column =>
      if column.attnum = 0 then column
      else { column with attnum := attmap column.attnum }
    indexprs := index.indexprs
    whereClause := index.indpred
    exclusion := index.indisexclusion && con.isSome
    unique := index.indisunique
    primary := index.indisprimary
    isconstraint := con.isSome
    deferrable := con.any PgConstraint.condeferrable
    initdeferred := con.any PgConstraint.condeferred
    concurrent := false
    hypothetical := index.indishypothetical }

/-- The part of `transformInhRelation` that concerns indexes. -/
def transformInhRelation (relname : String) (like : LikeClause) : Exec (List IndexDef) := do
  let relation ← heapOpenrv like.relation
  throwIf (!server.maySelect relation.oid)
    ⟨.insufficientPrivilege, "permission denied for relation " ++ relation.relname⟩
  let s ← get
  return if like.includingIndexes && relation.relhasindex then
      (s.cat.relationGetIndexList relation.oid).map
        (generateClonedIndexStmt s.cat relname like.attmap)
    else []

/-- The definitions `transformIndexConstraints` takes for the same index. The flag
is not compared. -/
def sameIndex (index priorindex : IndexDef) : Bool :=
  index.columns == priorindex.columns && index.indexprs == priorindex.indexprs &&
    index.whereClause == priorindex.whereClause &&
    index.exclusion == priorindex.exclusion && server.sameNames index priorindex &&
    index.accessMethod == priorindex.accessMethod &&
    index.deferrable == priorindex.deferrable &&
    index.initdeferred == priorindex.initdeferred

/-- Add a definition to the list, unless it is redundant. -/
def mergeIndex (server : DdlServer) : List IndexDef → IndexDef → List IndexDef
  | [], index => [index]
  | priorindex :: alist, index =>
    if sameIndex server index priorindex then
      { priorindex with
        unique := priorindex.unique || index.unique
        idxname := priorindex.idxname.or index.idxname } :: alist
    else priorindex :: mergeIndex server alist index

/-- The primary key so far and the list of all definitions. -/
abbrev IndexList : Type := Option IndexDef × List IndexDef

def appendIndex (relname : String) (cxt : IndexList) (index : IndexDef) :
    Except Error IndexList := do
  rejectIf (index.primary && cxt.1.isSome) (multiplePrimaryKeys relname)
  return (if index.primary then some index else cxt.1, cxt.2 ++ [index])

/-- The same for a constraint declared with the table. -/
def appendConstraint (relname : String) (cxt : IndexList)
    (c : KeyConstraint) : Except Error IndexList := do
  let cxt ← appendIndex relname cxt (transformIndexConstraint relname c)
  rejectIf c.indexname.isSome
    ⟨.featureNotSupported, "cannot use an existing index in CREATE TABLE"⟩
  -- The table has no OID yet.
  checkColumns (server.attname 0) c
  return cxt

/-- `transformIndexConstraints`: the primary key first, and nothing twice. -/
def transformIndexConstraints (relname : String)
    (constraints : List KeyConstraint) (inhIndexes : List IndexDef) :
    Except Error (List IndexDef) := do
  let cxt ← constraints.foldlM (appendConstraint server relname) (none, [])
  let cxt ← inhIndexes.foldlM (appendIndex relname) cxt
  let others := cxt.2.filter fun index => !index.primary
  return others.foldl (mergeIndex server) cxt.1.toList

def heapCreateWithCatalog (server : Server) (relname : String) : Exec Unit := do
  let s ← get
  throwIf (s.cat.relnameInUse relname) (relationExists relname)
  let row : PgClass := ⟨server.newOid s.cat, relname, false, false, true⟩
  set { s with cat := { s.cat with pgClass := s.cat.pgClass.insert row } }

def createTable (stmt : CreateStmt) : Exec Unit := do
  let s ← get
  if stmt.ifNotExists && s.cat.relnameInUse stmt.relname then pure ()
  else do
    throwSome (server.checkTable stmt)
    let inhIndexes ← stmt.likes.mapM (transformInhRelation server stmt.relname)
    let alist ← ofExcept (transformIndexConstraints server stmt.relname
      stmt.constraints inhIndexes.flatten)
    heapCreateWithCatalog server.toServer stmt.relname
    forM alist fun index => defineIndex server.toServer index false false

end PgTuning.Backend
