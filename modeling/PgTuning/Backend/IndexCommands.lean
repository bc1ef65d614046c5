import PgTuning.Backend.Session

/-!
# Creating, rebuilding and dropping indexes

`DefineIndex` and `index_create`, the `REINDEX` commands and `DROP INDEX`. A hypothetical index gets
its catalog rows and no build; `REINDEX` skips it; `DROP INDEX` and `DROP HYPOTHETICAL INDEX` each
refuse the other kind. A concurrent build goes on after `index_create` without looking at the flag.
Its waits, locks and the toast tables are left out.
-/

namespace PgTuning.Backend

open PgTuning.Lib
open PgTuning.Lib.Attempt

/-! ## Building -/

/-- `index_build`: whether broken HOT chains were found. -/
def indexBuild (server : Server) (index : PgIndex) (isreindex : Bool) :
    Exec Bool := do
  storageCall server .indexBuild index
  let s ← get
  let broken := server.brokenHotChain s.calls
  runIf (broken && !isreindex) <|
    updateIndex index.indexrelid (fun row => { row with indcheckxmin := true })
      fun _ => rfl
  updateRelhasindex index.indrelid true
  return broken

variable (server : Server)

def validateIndex (indexId : Oid) : Exec Unit := do
  let index ← indexOpen indexId
  storageCall server .indexBulkDelete index
  let s ← get
  forM (List.replicate (server.missingTuples s.calls) index)
    (storageCall server .indexInsert)

/-- Phases 2 and 3 of a concurrent build. -/
def buildConcurrently (indexId : Oid) : Exec Unit := do
  commitTransaction
  let index ← indexOpen indexId
  let _ ← indexBuild server index false
  updateIndex indexId (fun row => { row with indisready := true }) fun _ => rfl
  commitTransaction
  validateIndex server indexId
  updateIndex indexId (fun row => { row with indisvalid := true }) fun _ => rfl

/-! ## Creating -/

def systemCatalog : Error :=
  ⟨.featureNotSupported,
    "user-defined indexes on system catalog tables are not supported"⟩

variable (relname : String)

def relationExists : Error :=
  ⟨.duplicateTable, "relation \"" ++ relname ++ "\" already exists"⟩

def createConstraintEntry (entry : Oid → PgConstraint) : Exec Unit :=
  modify fun s =>
    let row := entry (server.newOid s.cat)
    { s with cat := { s.cat with pgConstraint := s.cat.pgConstraint.insert row } }

def indexConstraintCreate (heapRelation : PgClass)
    (index : PgIndex) (constraintName : String) (constraintType : ConstraintType)
    (deferrable initdeferred markAsPrimary updatePgindex : Bool) : Exec Unit := do
  throwIf heapRelation.isSystem systemCatalog
  throwIf (!index.indexprs.isEmpty && constraintType != .exclusion)
    ⟨.internalError, "constraints cannot have index expressions"⟩
  createConstraintEntry server fun oid =>
    { oid := oid
      conname := constraintName
      contype := constraintType
      condeferrable := deferrable
      condeferred := initdeferred
      conrelid := heapRelation.oid
      conindid := index.indexrelid
      confrelid := none
      conkey := index.columns.map IndexColumn.attnum
      confkey := [] }
  runIf markAsPrimary (updateRelhasindex heapRelation.oid true)
  runIf (updatePgindex && ((markAsPrimary && !index.indisprimary) ||
      (deferrable && index.indimmediate))) <|
    updateIndex index.indexrelid
      (fun row => { row with
        indisprimary := markAsPrimary || row.indisprimary
        indimmediate := !deferrable && row.indimmediate })
      fun _ => rfl

def relationHasPrimaryKey (cat : Catalog) (relid : Oid) : Bool :=
  (cat.relationGetIndexList relid).any PgIndex.indisprimary

def multiplePrimaryKeys : Error :=
  ⟨.invalidTableDefinition, "multiple primary keys for table \"" ++ relname ++
    "\" are not allowed"⟩

/-- `index_check_primary_key`, except that it marks the columns `NOT NULL`. -/
def indexCheckPrimaryKey (heapRelation : PgClass) (columns : List IndexColumn)
    (isAlterTable : Bool) : Exec Unit := do
  let s ← get
  throwIf (isAlterTable && relationHasPrimaryKey s.cat heapRelation.oid)
    (multiplePrimaryKeys heapRelation.relname)
  throwIf (columns.any fun column => column.attnum == 0)
    ⟨.featureNotSupported, "primary keys cannot be expressions"⟩

variable {I : Session → Prop}

theorem keeps_indexCheckPrimaryKey (heapRelation : PgClass) (columns : List IndexColumn)
    (isAlterTable : Bool) : Keeps I (indexCheckPrimaryKey heapRelation columns isAlterTable) := by
  apply keeps_get.bind
  intro _
  apply keeps_throwIf.bind
  intro _
  exact keeps_throwIf

variable (d : IndexDef)

/-- The row `UpdateIndexRelation` inserts. -/
def IndexDef.row (oid heapoid : Oid) (relname : String) (xid : UInt32) : PgIndex where
  indexrelid := oid
  relname := relname
  indrelid := heapoid
  relam := d.accessMethod
  columns := d.columns
  indexprs := d.indexprs
  indpred := d.whereClause
  indisunique := d.unique
  indisprimary := d.primary
  indisexclusion := d.exclusion
  indimmediate := !d.deferrable
  indisclustered := false
  indisvalid := !d.concurrent
  indcheckxmin := false
  -- "We set isvalid and isready the same way."
  indisready := !d.concurrent
  indishypothetical := d.hypothetical
  xmin := xid

/-- `UpdateIndexRelation`, with a new OID: the index as the relation cache then has
it. -/
def updateIndexRelation (heapoid : Oid) (relname : String) (d : IndexDef) : Exec PgIndex := do
  let s ← get
  let index := d.row (server.newOid s.cat) heapoid relname s.xid
  set { s with cat := { s.cat with pgIndex := s.cat.pgIndex.insert index } }
  return index

def IndexDef.constraintType : Option ConstraintType :=
  if d.primary then some .primary
  else if d.unique then some .unique
  else if d.exclusion then some .exclusion
  else none

/-- The `pg_constraint` entry of an index made for a constraint. -/
def registerConstraint (heapRelation : PgClass) (index : PgIndex) (d : IndexDef) : Exec Unit :=
  match d.constraintType with
  | some constraintType =>
    indexConstraintCreate server heapRelation index index.relname constraintType
      d.deferrable d.initdeferred false false
  | none => throw ⟨.internalError, "constraint must be PRIMARY, UNIQUE or EXCLUDE"⟩

/-- The last step of `index_create`: build the index, unless the caller does it
later or the index is hypothetical. -/
def buildOrRegister (index : PgIndex) (skipBuild : Bool) : Exec Unit :=
  if skipBuild || index.indishypothetical then updateRelhasindex index.indrelid true
  else do
    let _ ← indexBuild server index false

def indexCreate (heapRelation : PgClass)
    (indexRelationName : String) (d : IndexDef) (skipBuild : Bool) :
    Exec Oid := do
  throwIf heapRelation.isSystem systemCatalog
  throwIf (d.concurrent && d.exclusion) ⟨.featureNotSupported,
    "concurrent index creation for exclusion constraints is not supported"⟩
  let s ← get
  throwIf (s.cat.relnameInUse indexRelationName) (relationExists indexRelationName)
  let index ← updateIndexRelation server heapRelation.oid indexRelationName d
  runIf d.isconstraint (registerConstraint server heapRelation index d)
  buildOrRegister server index skipBuild
  return index.indexrelid

/-- The checks of `DefineIndex` on the access method. -/
def checkAccessMethod : Exec Unit := do
  let name := "access method \"" ++ d.accessMethod.amname ++ "\" does not support "
  throwIf (d.unique && !d.accessMethod.amcanunique)
    ⟨.featureNotSupported, name ++ "unique indexes"⟩
  throwIf (decide (d.columns.length > 1) && !d.accessMethod.amcanmulticol)
    ⟨.featureNotSupported, name ++ "multicolumn indexes"⟩
  throwIf (d.exclusion && !d.accessMethod.amgettuple)
    ⟨.featureNotSupported, name ++ "exclusion constraints"⟩

theorem keeps_checkAccessMethod : Keeps I (checkAccessMethod d) := by
  apply keeps_throwIf.seq
  apply keeps_throwIf.seq
  exact keeps_throwIf

def defineIndex (isAlterTable skipBuild : Bool) : Exec Unit := do
  throwIf d.columns.isEmpty
    ⟨.invalidObjectDefinition, "must specify at least one column"⟩
  throwIf (decide (d.columns.length > 32))
    ⟨.tooManyColumns, "cannot use more than 32 columns in an index"⟩
  let rel ← heapOpenrv d.relation
  throwSome (server.checkIndex d)
  let s ← get
  let indexRelationName := d.idxname.getD (server.chooseIndexName s.cat d)
  checkAccessMethod d
  runIf d.primary (indexCheckPrimaryKey rel d.columns isAlterTable)
  throwIf (d.isconstraint && d.constraintType.isNone)
    ⟨.internalError, "unknown constraint type"⟩
  let indexRelationId ← indexCreate server rel indexRelationName d
    (skipBuild || d.concurrent)
  runIf d.concurrent (buildConcurrently server indexRelationId)

/-! ## Rebuilding -/

def reindexIndex (indexId : Oid) (skipConstraintChecks : Bool) : Exec Unit := do
  let index ← indexOpen indexId
  throwIf index.indishypothetical
    ⟨.wrongObjectType, "relation is a hypothetical index"⟩
  let broken ← indexBuild server index true
  let skippedConstraint :=
    skipConstraintChecks && (index.indisunique || index.indisexclusion)
  let unfinished := !index.indisvalid || !index.indisready
  runIf (!skippedConstraint && (unfinished || (index.indcheckxmin && !broken))) <|
    updateIndex indexId
      (fun row => { row with
        indcheckxmin := broken && (unfinished || row.indcheckxmin)
        indisvalid := true
        indisready := true })
      fun _ => rfl

def reindexRelation (relid : Oid) (checkConstraints : Bool) : Exec Unit := do
  let _ ← heapOpen relid
  let indexes ← indexList relid
  forM indexes fun entry => do
    let index ← indexOpen entry.indexrelid
    runIf (!index.indishypothetical)
      (reindexIndex server entry.indexrelid (!checkConstraints))

def reindexIndexCommand : Exec Unit := do
  let index ← indexOpenNamed relname (undefinedRelation relname)
  checkOwner server index.indexrelid relname
  runIf (!index.indishypothetical) (reindexIndex server index.indexrelid false)

def reindexTable : Exec Unit := do
  let relation ← heapOpenrv relname
  checkOwner server relation.oid relname
  reindexRelation server relation.oid false

/-- `RelationRelationId`, the OID of `pg_class` itself. -/
def relationRelationId : Oid := 1259

/-- `ReindexDatabase`: `pg_class` first, then the other tables asked for, each in a
transaction of its own. -/
def reindexDatabase (doSystem doUser : Bool) : Exec Unit := do
  let s ← get
  let others := s.cat.pgClass.rows.filter fun relation =>
    (if relation.isSystem then doSystem else doUser) &&
      relation.oid != relationRelationId
  let relids := (if doSystem then [relationRelationId] else []) ++
    others.map PgClass.oid
  commitTransaction
  forM relids fun relid => do
    reindexRelation server relid false
    commitTransaction

/-! ## Dropping -/

/-- The checks of `RemoveRelations` on one name: the index to drop, if any. -/
def indexToRemove (hypothetical missingOk : Bool) (relname : String) : Exec (Option PgIndex) := do
  let s ← get
  match s.cat.indexNamed relname with
  | none => do
      throwIf (s.cat.tableNamed relname).isSome
        ⟨.wrongObjectType, "\"" ++ relname ++ "\" is not an index"⟩
      throwIf (!missingOk)
        ⟨.undefinedObject, "index \"" ++ relname ++ "\" does not exist"⟩
      return none
  | some index => do
      throwIf (index.indishypothetical != hypothetical)
        ⟨.wrongObjectType, "index \"" ++ relname ++ "\" is not " ++
          (if hypothetical then "hypothetical" else "real")⟩
      checkOwner server index.indexrelid relname
      return some index

/-- The constraint an index belongs to (`get_index_constraint`). -/
def getIndexConstraint (cat : Catalog) (indexId : Oid) : Option PgConstraint :=
  cat.pgConstraint.rows.find? fun con =>
    con.conindid == indexId && con.contype != .foreign

/-- `performDeletion` of one index: a constraint keeps its index, a foreign key that
needs the index goes with it under `CASCADE`. -/
def performDeletion (cascade : Bool) (index : PgIndex) : Exec Unit := do
  let s ← get
  throwSome ((getIndexConstraint s.cat index.indexrelid).map fun con =>
    ⟨.dependentObjectsStillExist, "cannot drop index " ++ index.relname ++
      " because constraint " ++ con.conname ++ " requires it"⟩)
  let dependents := s.cat.pgConstraint.rows.any fun con =>
    con.conindid == index.indexrelid
  throwIf (dependents && !cascade) ⟨.dependentObjectsStillExist,
    "cannot drop index " ++ index.relname ++ " because other objects depend on it"⟩
  let kept := s.cat.pgConstraint.filter fun con =>
    !(con.conindid == index.indexrelid)
  set { s with cat := { s.cat with
    pgIndex := s.cat.pgIndex.erase index.indexrelid
    pgConstraint := kept } }

def removeRelations (hypothetical missingOk cascade : Bool)
    (relnames : List String) : Exec Unit := do
  let indexes ← relnames.mapM (indexToRemove server hypothetical missingOk)
  forM (indexes.filterMap id) (performDeletion cascade)

end PgTuning.Backend
