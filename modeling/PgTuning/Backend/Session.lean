import PgTuning.Backend.Catalog
import PgTuning.Lib.Attempt

/-!
# Sessions

A command runs in a session: it reads and changes the catalogs as its transaction sees them, and it
calls the index access methods. The catalogs come back to what was last committed when a command
fails; the calls it made stay made. The session records every call with the index it was made on,
newest first.

What the calls do to files is not modelled. Any of them may fail at any time, and what they find is
decided by the `Server`, from the calls made so far.
-/

namespace PgTuning.Backend

open PgTuning.Lib
open PgTuning.Lib.Attempt

/-- The entry points of the index access methods, and the heap rewrite in the
order of an index (by an index scan or by a sort that gives the same order). -/
inductive CallKind where
  | indexBuild
  | indexInsert
  | indexBulkDelete
  | indexVacuumCleanup
  | indexOrderedRewrite
deriving DecidableEq, Repr

/-- A call, with the `pg_index` row of the relation it is given. -/
structure StorageCall where
  kind : CallKind
  index : PgIndex
deriving DecidableEq, Repr

structure Session where
  /-- The catalogs as the running transaction sees them. -/
  cat : Catalog
  committed : Catalog
  xid : UInt32
  calls : List StorageCall

abbrev Exec (α : Type) : Type := Attempt Error Session α

/-- The arguments of `DefineIndex`, with the columns as `ComputeIndexAttrs` finds
them. -/
structure IndexDef where
  relation : String
  idxname : Option String
  accessMethod : AccessMethod
  columns : List IndexColumn
  indexprs : List String
  whereClause : List String
  exclusion : Bool
  unique : Bool
  primary : Bool
  isconstraint : Bool
  deferrable : Bool
  initdeferred : Bool
  concurrent : Bool
  hypothetical : Bool
deriving DecidableEq, Repr

structure Server where
  /-- How the latest of the calls made so far ends. -/
  storage : List StorageCall → Option Error
  /-- Whether the latest build found broken HOT chains (`ii_BrokenHotChain`). -/
  brokenHotChain : List StorageCall → Bool
  /-- How many rows `validate_index_heapscan` finds missing. -/
  missingTuples : List StorageCall → Nat
  /-- `GetNewRelFileNode` and `GetNewOid`. -/
  newOid : Catalog → Oid
  newOid_unused : ∀ cat : Catalog, cat.Unused (newOid cat)
  /-- The checks of `DefineIndex` that do not concern indexes: rights, tablespace,
  options, predicate, column types. -/
  checkIndex : IndexDef → Option Error
  chooseIndexName : Catalog → IndexDef → String
  owns : Oid → Bool
  maintenanceWorkMem : Nat

variable (server : Server)

def storageCall (kind : CallKind) (index : PgIndex) : Exec Unit := do
  modify fun s => { s with calls := ⟨kind, index⟩ :: s.calls }
  let s ← get
  match server.storage s.calls with
  | some e => throw e
  | none => pure ()

/-- A call that fails has been recorded as well. -/
theorem storageCall_ends {kind : CallKind} {index : PgIndex}
    {P Q : Session → Prop} (hCall : ∀ s, P s → Q { s with calls := ⟨kind, index⟩ :: s.calls }) :
    Ends P (storageCall server kind index) (fun _ => Q) Q := by
  apply Triple.bind (R := fun _ => Q) (ends_modify hCall)
  intro _
  apply keeps_get.bind
  intro s
  cases server.storage s.calls with
  | some e => exact keeps_throw e
  | none => exact keeps_pure ()

/-- `CommitTransactionCommand` and `StartTransactionCommand`. -/
def commitTransaction : Exec Unit :=
  modify fun s => { s with committed := s.cat, xid := s.xid + 1 }

def Session.abort (s : Session) : Session :=
  { s with cat := s.committed, xid := s.xid + 1 }

/-- Run a command as a transaction of its own. -/
def execute (m : Exec Unit) (s : Session) : Session :=
  match (m >>= fun _ => commitTransaction) s with
  | .ok _ t => t
  | .error _ t => t.abort

/-- What a command leaves behind, whether it is committed or rolled back. -/
theorem execute_of_ends {m : Exec Unit} {start : Session} {I Q E : Session → Prop}
    (h : Ends (fun s => s = start) m (fun _ => Q) E)
    (hCommit : ∀ s, Q s → I { s with committed := s.cat, xid := s.xid + 1 })
    (hAbort : ∀ s, E s → I s.abort) : I (execute m start) := by
  have hRun := h start rfl
  unfold execute
  rw [bind_run]
  revert hRun
  cases m start with
  | ok _ t => exact hCommit t
  | error _ t => exact hAbort t

/-! ## Reading the catalogs -/

variable (relname : String)

def undefinedRelation : Error :=
  ⟨.undefinedTable, "relation \"" ++ relname ++ "\" does not exist"⟩

def heapOpenrv : Exec PgClass := do
  let s ← get
  match s.cat.tableNamed relname with
  | some relation => pure relation
  | none => throw (undefinedRelation relname)

variable (oid : Oid)

def checkOwner (relname : String) : Exec Unit :=
  throwIf (!server.owns oid)
    ⟨.insufficientPrivilege, "must be owner of relation " ++ relname⟩

/-- `ATSimplePermissions` for a command on tables. -/
def atSimplePermissions (rel : PgClass) : Exec Unit := do
  checkOwner server rel.oid rel.relname
  throwIf rel.isSystem ⟨.insufficientPrivilege,
    "permission denied: \"" ++ rel.relname ++ "\" is a system catalog"⟩

def couldNotOpen : Error :=
  ⟨.internalError, "could not open relation with OID " ++ toString oid⟩

def heapOpen : Exec PgClass := do
  let s ← get
  match s.cat.pgClass.get? oid with
  | some relation => pure relation
  | none => throw (couldNotOpen oid)

def indexOpen : Exec PgIndex := do
  let s ← get
  match s.cat.pgIndex.get? oid with
  | some index => pure index
  | none => throw (couldNotOpen oid)

/-- `get_relname_relid` and `index_open`; a table of that name is no index. -/
def indexOpenNamed (missing : Error) : Exec PgIndex := do
  let s ← get
  match s.cat.indexNamed relname with
  | some index => pure index
  | none =>
    if (s.cat.tableNamed relname).isSome then
      throw ⟨.wrongObjectType, "\"" ++ relname ++ "\" is not an index"⟩
    else throw missing

def indexList (relid : Oid) : Exec (List PgIndex) := do
  let s ← get
  return s.cat.relationGetIndexList relid

section Reading

/-! Reading leaves any invariant alone. -/

variable {I : Session → Prop}

theorem keeps_heapOpenrv : Keeps I (heapOpenrv relname) := by
  apply keeps_get.bind
  intro s
  cases s.cat.tableNamed relname with
  | none => exact keeps_throw _
  | some relation => exact keeps_pure relation

theorem keeps_heapOpen : Keeps I (heapOpen oid) := by
  apply keeps_get.bind
  intro s
  cases s.cat.pgClass.get? oid with
  | none => exact keeps_throw _
  | some relation => exact keeps_pure relation

theorem keeps_checkOwner (relname : String) : Keeps I (checkOwner server oid relname) := by
  apply Keeps.ite
  · exact keeps_throw _
  · exact keeps_pure PUnit.unit

theorem keeps_atSimplePermissions (rel : PgClass) : Keeps I (atSimplePermissions server rel) :=
  (keeps_checkOwner server _ _).bind fun _ => keeps_throwIf

/-- What follows `index_open` may rely on the row being there. -/
theorem keeps_indexOpen_bind {β : Type} {oid : Oid} {f : PgIndex → Exec β}
    (h : ∀ s index, I s → index ∈ s.cat.pgIndex.rows → index.indexrelid = oid →
      Keeps I (f index)) : Keeps I (indexOpen oid >>= f) := by
  intro s hs
  unfold indexOpen
  rw [bind_run, bind_run_ok (get_run s)]
  cases hGet : s.cat.pgIndex.get? oid with
  | none => exact hs
  | some index =>
    obtain ⟨hMem, hKey⟩ := Table.get?_eq_some.mp hGet
    exact h s index hs hMem hKey s hs

theorem keeps_indexOpenNamed (missing : Error) : Keeps I (indexOpenNamed relname missing) := by
  apply keeps_get.bind
  intro s
  cases s.cat.indexNamed relname with
  | none =>
    apply Keeps.ite
    · exact keeps_throw _
    · exact keeps_throw _
  | some index => exact keeps_pure index

end Reading

theorem heapOpenrv_ends (start : Session) : Ends (fun s => s = start) (heapOpenrv relname)
      (fun relation s => s = start ∧ start.cat.tableNamed relname = some relation)
      (fun s => s = start) := by
  intro s hs
  unfold heapOpenrv
  rw [hs, bind_run_ok (get_run start)]
  cases start.cat.tableNamed relname with
  | none => rfl
  | some relation => exact ⟨rfl, rfl⟩

theorem indexOpenNamed_ends (missing : Error) (start : Session) :
    Ends (fun s => s = start) (indexOpenNamed relname missing)
      (fun index s => s = start ∧ start.cat.indexNamed relname = some index)
      (fun s => s = start) := by
  intro s hs
  unfold indexOpenNamed
  rw [hs, bind_run_ok (get_run start)]
  cases start.cat.indexNamed relname with
  | none =>
    cases (start.cat.tableNamed relname).isSome with
    | true => rfl
    | false => rfl
  | some index => exact ⟨rfl, rfl⟩

/-! ## Changing the catalogs -/

def Catalog.updateIndex (f : PgIndex → PgIndex)
    (hKey : ∀ index, (f index).indexrelid = index.indexrelid) (cat : Catalog) :
    Catalog :=
  { cat with pgIndex := cat.pgIndex.modify oid f hKey }

theorem Catalog.mem_updateIndex {oid : Oid} {f : PgIndex → PgIndex}
    (hKey : ∀ index, (f index).indexrelid = index.indexrelid) {cat : Catalog} {index : PgIndex} :
    index ∈ (cat.updateIndex oid f hKey).pgIndex.rows ↔
      ∃ row ∈ cat.pgIndex.rows, index = if row.indexrelid = oid then f row else row :=
  Table.mem_modify hKey

/-- The new version of a row belongs to the running transaction. -/
def PgIndex.stamp (xid : UInt32) (index : PgIndex) : PgIndex :=
  { index with xmin := xid }

/-- `simple_heap_update` of a `pg_index` row. -/
def updateIndex (oid : Oid) (f : PgIndex → PgIndex)
    (hKey : ∀ index, (f index).indexrelid = index.indexrelid) : Exec Unit :=
  modify fun s =>
    { s with cat := s.cat.updateIndex oid (fun index => (f index).stamp s.xid) hKey }

def Catalog.setRelhasindex (relid : Oid) (hasindex : Bool) (cat : Catalog) :
    Catalog :=
  let set := fun relation : PgClass => { relation with relhasindex := hasindex }
  { cat with pgClass := cat.pgClass.modify relid set fun _ => rfl }

/-- The part of `index_update_stats` and `vac_update_relstats` that concerns
indexes. The row is overwritten in place, whatever becomes of the transaction. -/
def updateRelhasindex (relid : Oid) (hasindex : Bool) : Exec Unit :=
  modify fun s =>
    { s with
      cat := s.cat.setRelhasindex relid hasindex
      committed := s.committed.setRelhasindex relid hasindex }

/-! ## A small session to run commands in -/

def calmServer : Server where
  storage := fun _ => none
  brokenHotChain := fun _ => false
  missingTuples := fun _ => 1
  newOid := Catalog.nextOid
  newOid_unused := Catalog.nextOid_unused
  checkIndex := fun _ => none
  chooseIndexName := fun _ _ => "x"
  owns := fun _ => true
  maintenanceWorkMem := 1024

def plainTable : Catalog where
  pgClass := Table.empty.insert ⟨16384, "t", false, false, true⟩
  pgIndex := Table.empty
  pgConstraint := Table.empty

def plainSession : Session := ⟨plainTable, plainTable, 700, []⟩

def indexOnT (idxname : String) (hypothetical concurrent : Bool) : IndexDef where
  relation := "t"
  idxname := some idxname
  accessMethod := .btree
  columns := [⟨1, 0, 1976, .int4, true, -1, 4, false, false⟩]
  indexprs := []
  whereClause := []
  exclusion := false
  unique := false
  primary := false
  isconstraint := false
  deferrable := false
  initdeferred := false
  concurrent := concurrent
  hypothetical := hypothetical

end PgTuning.Backend
