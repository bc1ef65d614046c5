import Mathlib.Algebra.Group.Nat.Defs
import PgTuning.Backend.IndexCommands

/-!
# Rows, VACUUM and CLUSTER

The commands that work through the index list of a table: the executor when it stores rows,
`VACUUM`, and `CLUSTER` with its variant `VACUUM FULL`. The executor and the last phase of `VACUUM`
leave hypothetical indexes out. The index passes of `VACUUM` do not, and neither does `CLUSTER` when
it goes by the index remembered in `indisclustered`.
-/

namespace PgTuning.Backend

open PgTuning.Lib
open PgTuning.Lib.Attempt

/-! ## Storing rows -/

inductive Dml where
  | insert
  | update
  | delete
  | copy
deriving DecidableEq, Repr

structure NewTuple where
  /-- `HeapTupleIsHeapOnly`: the update needs no index entries. -/
  heapOnly : Bool
  /-- Whether the row satisfies the predicate of a partial index. -/
  satisfies : Oid → Bool

def execOpenIndices (cat : Catalog) (relation : PgClass) (hypothetical : Bool) :
    List PgIndex :=
  if !relation.relhasindex then []
  else (cat.relationGetIndexList relation.oid).filter fun index =>
    hypothetical || !index.indishypothetical

/-- Whether the row gets an entry: the index is ready for inserts, and its predicate
holds. -/
def NewTuple.needsEntry (tuple : NewTuple) (index : PgIndex) : Bool :=
  index.indisready && (index.indpred.isEmpty || tuple.satisfies index.indexrelid)

variable (server : Server)

def execInsertIndexTuples (indices : List PgIndex) (tuple : NewTuple) : Exec Unit :=
  forM indices fun index =>
    runIf (tuple.needsEntry index) (storageCall server .indexInsert index)

/-- `ExecModifyTable` and `CopyFrom`. `COPY` opens the indexes without the flag,
and the plan of a statement that is not explained does not have it either. -/
def execModifyTable (operation : Dml) (relname : String) (tuples : List NewTuple) : Exec Unit := do
  let relation ← heapOpenrv relname
  if operation == .delete then pure ()
  else do
    let s ← get
    let indices := execOpenIndices s.cat relation false
    forM tuples fun tuple =>
      runIf (!(operation == .update && tuple.heapOnly))
        (execInsertIndexTuples server indices tuple)

/-! ## VACUUM -/

/-- A page of the table as `lazy_scan_heap` meets it. -/
inductive HeapPage where
  /-- All visible, and skipped. -/
  | skipped
  /-- New or empty. -/
  | blank
  /-- With that many dead row versions to remember. -/
  | items (dead : Nat)
deriving DecidableEq, Repr

def maxHeapTuplesPerPage : Nat := 291

/-- `lazy_space_alloc`: `max_dead_tuples`. -/
def lazySpaceAlloc (hasindex : Bool) (relblocks : Nat) : Nat :=
  if hasindex then
    let maxtuples := server.maintenanceWorkMem * 1024 / 6
    let maxtuples := min maxtuples (2 ^ 31 - 1)
    let maxtuples := min maxtuples ((2 ^ 30 - 1) / 6)
    let maxtuples :=
      if maxtuples / maxHeapTuplesPerPage > relblocks then
        relblocks * maxHeapTuplesPerPage
      else maxtuples
    max maxtuples maxHeapTuplesPerPage
  else maxHeapTuplesPerPage

variable (indexes : List PgIndex)

def lazyVacuumIndexes : Exec Unit :=
  forM indexes (storageCall server .indexBulkDelete)

/-- One turn of the loop over the pages: the number of dead row versions
remembered. Without indexes a page is vacuumed at once. -/
def lazyScanPage (maxDeadTuples : Nat) (numDeadTuples : Nat) (page : HeapPage) : Exec Nat :=
  if page = .skipped then pure numDeadTuples
  else do
    let full := maxDeadTuples - numDeadTuples < maxHeapTuplesPerPage &&
      numDeadTuples > 0
    runIf full (lazyVacuumIndexes server indexes)
    let numDeadTuples := if full then 0 else numDeadTuples
    match page with
    | .items dead =>
      let remembered := min (numDeadTuples + dead) maxDeadTuples
      return if indexes.isEmpty then 0 else remembered
    | _ => return numDeadTuples

def lazyScanHeap (pages : List HeapPage) : Exec Unit := do
  let maxDeadTuples := lazySpaceAlloc server (!indexes.isEmpty) pages.length
  let numDeadTuples ←
    pages.foldlM (lazyScanPage server indexes maxDeadTuples) 0
  runIf (numDeadTuples > 0) (lazyVacuumIndexes server indexes)
  forM indexes fun index =>
    runIf (!index.indishypothetical) (storageCall server .indexVacuumCleanup index)

def lazyVacuumRel (relid : Oid) (pages : List HeapPage) : Exec Unit := do
  let indexes ← indexList relid
  lazyScanHeap server indexes pages
  updateRelhasindex relid (!indexes.isEmpty)

/-! ## CLUSTER -/

def checkIndexIsClusterable (oldHeap : PgClass) (index : PgIndex) : Exec Unit := do
  throwIf (index.indrelid != oldHeap.oid) ⟨.wrongObjectType,
    "\"" ++ index.relname ++ "\" is not an index for table \"" ++ oldHeap.relname ++
      "\""⟩
  throwIf (!index.relam.amclusterable) ⟨.featureNotSupported,
    "cannot cluster on index \"" ++ index.relname ++
      "\" because access method does not support clustering"⟩
  throwIf (!index.indpred.isEmpty) ⟨.featureNotSupported,
    "cannot cluster on partial index \"" ++ index.relname ++ "\""⟩
  throwIf (!index.indisvalid) ⟨.featureNotSupported,
    "cannot cluster on invalid index \"" ++ index.relname ++ "\""⟩

theorem keeps_checkIndexIsClusterable {I : Session → Prop} (oldHeap : PgClass)
    (index : PgIndex) : Keeps I (checkIndexIsClusterable oldHeap index) := by
  apply keeps_throwIf.seq
  apply keeps_throwIf.seq
  apply keeps_throwIf.seq
  exact keeps_throwIf

/-- What `mark_index_clustered` does to a row of `pg_index`. -/
def PgIndex.markClustered (relid indexOid : Oid) (xid : UInt32) (index : PgIndex) :
    PgIndex :=
  if index.indrelid != relid then index
  else if index.indisclustered then
    { index with indisclustered := false, xmin := xid }
  else if index.indexrelid == indexOid then
    { index with indisclustered := true, xmin := xid }
  else index

theorem PgIndex.markClustered_indexrelid (relid indexOid : Oid) (xid : UInt32) (index : PgIndex) :
    (index.markClustered relid indexOid xid).indexrelid = index.indexrelid := by
  unfold PgIndex.markClustered
  split_ifs <;> rfl

/-- `mark_index_clustered`: nothing to do when the index is marked already. -/
def markIndexClustered (relid indexOid : Oid) : Exec Unit := do
  let index ← indexOpen indexOid
  runIf (!index.indisclustered) <| modify fun s =>
    let marked := s.cat.pgIndex.map (PgIndex.markClustered relid indexOid s.xid)
      (PgIndex.markClustered_indexrelid relid indexOid s.xid)
    { s with cat := { s.cat with pgIndex := marked } }

/-- The first half of `rebuild_relation`: rewrite the heap, in the order of an index
if one is given. -/
def rewriteHeap (relid : Oid) : Option PgIndex → Exec Unit
  | some index => do
      markIndexClustered relid index.indexrelid
      storageCall server .indexOrderedRewrite index
  | none => pure ()

def rebuildRelation (relid : Oid) (index : Option PgIndex) : Exec Unit := do
  rewriteHeap server relid index
  reindexRelation server relid false

/-- The tests `cluster_rel` repeats in the multi-relation case. -/
def stillToCluster (oldHeap : PgClass) (cat : Catalog) (indexOid : Oid) : Bool :=
  server.owns oldHeap.oid &&
    match cat.pgIndex.get? indexOid with
    | some index => index.indisclustered
    | none => false

def clusterRel (tableOid indexOid : Oid) (recheck : Bool) : Exec Unit := do
  let s ← get
  match s.cat.pgClass.get? tableOid with
  | none => pure ()
  | some oldHeap =>
    if recheck && !stillToCluster server oldHeap s.cat indexOid then pure ()
    else do
      let index ← indexOpen indexOid
      checkIndexIsClusterable oldHeap index
      rebuildRelation server tableOid (some index)

def Catalog.clusteredIndex (cat : Catalog) (relid : Oid) : Option PgIndex :=
  (cat.relationGetIndexList relid).find? PgIndex.indisclustered

def clusterTable (relname : String) (indexname : Option String) : Exec Unit := do
  let rel ← heapOpenrv relname
  checkOwner server rel.oid relname
  match indexname with
  | none => do
      let s ← get
      match s.cat.clusteredIndex rel.oid with
      | none => throw ⟨.undefinedObject,
          "there is no previously clustered index for table \"" ++ relname ++ "\""⟩
      | some index => clusterRel server rel.oid index.indexrelid false
  | some indexname => do
      let index ← indexOpenNamed indexname ⟨.undefinedObject, "index \"" ++
        indexname ++ "\" for table \"" ++ relname ++ "\" does not exist"⟩
      throwIf index.indishypothetical ⟨.undefinedObject, "index \"" ++ indexname ++
        "\" for table \"" ++ relname ++ "\" is a hypothetical index"⟩
      clusterRel server rel.oid index.indexrelid false

def getTablesToCluster (cat : Catalog) : List PgIndex :=
  (cat.pgIndex.rows.filter fun index =>
    index.indisclustered && server.owns index.indrelid).reverse

/-- `CLUSTER` without a table: every remembered index, each in a transaction of its
own. -/
def clusterAll : Exec Unit := do
  let s ← get
  commitTransaction
  forM (getTablesToCluster server s.cat) fun index => do
    clusterRel server index.indrelid index.indexrelid true
    commitTransaction

/-- `ALTER TABLE ... CLUSTER ON`. -/
def atExecClusterOn (relname indexname : String) : Exec Unit := do
  let rel ← heapOpenrv relname
  atSimplePermissions server rel
  let index ← indexOpenNamed indexname ⟨.undefinedObject, "index \"" ++ indexname ++
    "\" for table \"" ++ rel.relname ++ "\" does not exist"⟩
  checkIndexIsClusterable rel index
  markIndexClustered rel.oid index.indexrelid

/-- `VACUUM [FULL]` of one table. `VACUUM FULL` is a `cluster_rel` without an
index. -/
def vacuumRel (full : Bool) (relname : String) (pages : List HeapPage) : Exec Unit := do
  let rel ← heapOpenrv relname
  if !server.owns rel.oid then pure ()
  else if full then rebuildRelation server rel.oid none
  else lazyVacuumRel server rel.oid pages

end PgTuning.Backend
