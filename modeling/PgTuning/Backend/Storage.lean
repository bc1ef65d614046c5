import PgTuning.Backend.Maintenance
import PgTuning.Lib.Run

/-!
# Hypothetical indexes and storage

A hypothetical index has catalog rows and an empty file. No command should hand it to an access
method. The invariant is `Guarded H`: no call so far was made on a hypothetical index, and the OIDs
of the hypothetical indexes are among `H`. An index opened by an OID outside `H` is then a real one.

Three commands break the rule, each in one form: `CREATE HYPOTHETICAL INDEX CONCURRENTLY`, `VACUUM`
of a table with dead rows and a hypothetical index, and `CLUSTER` by a remembered hypothetical
index. `Careful` excludes these forms.
-/

namespace PgTuning.Backend

open PgTuning.Lib List
open PgTuning.Lib.Attempt

/-- No call was made on a hypothetical index. -/
def Session.Untouched (s : Session) : Prop :=
  ∀ call ∈ s.calls, call.index.indishypothetical = false

structure Guarded (H : Oid → Prop) (s : Session) : Prop where
  untouched : s.Untouched
  known : ∀ index ∈ s.cat.pgIndex.rows,
    index.indishypothetical = true → H index.indexrelid

variable {H : Oid → Prop} {s start : Session} {index : PgIndex}

theorem Guarded.real (h : Guarded H s) (hMem : index ∈ s.cat.pgIndex.rows)
    (hOut : ¬ H index.indexrelid) : index.indishypothetical = false := by
  cases hFlag : index.indishypothetical with
  | false => rfl
  | true => exact absurd (h.known index hMem hFlag) hOut

/-! ## The building blocks -/

section Blocks

variable {H : Oid → Prop} (server : Server) {indexId : Oid}

theorem storageCall_guarded (kind : CallKind) {index : PgIndex}
    (hReal : index.indishypothetical = false) :
    Keeps (Guarded H) (storageCall server kind index) :=
  storageCall_ends server fun _ hs => ⟨forall_mem_cons.mpr ⟨hReal, hs.untouched⟩, hs.known⟩

theorem commitTransaction_guarded : Keeps (Guarded H) commitTransaction :=
  keeps_modify fun _ hs => ⟨hs.untouched, hs.known⟩

theorem updateIndex_guarded (oid : Oid) {f : PgIndex → PgIndex}
    (hKey : ∀ index, (f index).indexrelid = index.indexrelid)
    (hFlag : ∀ index, (f index).indishypothetical = index.indishypothetical) :
    Keeps (Guarded H) (updateIndex oid f hKey) := by
  apply keeps_modify
  intro s hs
  refine ⟨hs.untouched, ?_⟩
  intro index hIndex hHyp
  obtain ⟨row, hRow, hEq⟩ := (Catalog.mem_updateIndex _).mp hIndex
  have hSame : index.indishypothetical = row.indishypothetical ∧
      index.indexrelid = row.indexrelid := by
    rw [hEq]
    split_ifs
    · exact ⟨hFlag row, hKey row⟩
    · exact ⟨rfl, rfl⟩
  rw [hSame.2]
  exact hs.known row hRow (hSame.1.symm.trans hHyp)

theorem updateRelhasindex_guarded (relid : Oid) (hasindex : Bool) :
    Keeps (Guarded H) (updateRelhasindex relid hasindex) :=
  keeps_modify fun _ hs => ⟨hs.untouched, hs.known⟩

theorem indexBuild_guarded {index : PgIndex} (isreindex : Bool)
    (hReal : index.indishypothetical = false) :
    Keeps (Guarded H) (indexBuild server index isreindex) := by
  apply (storageCall_guarded server .indexBuild hReal).seq
  apply keeps_get.bind
  intro s
  apply Keeps.bind
  · exact keeps_runIf fun _ => updateIndex_guarded _ _ fun _ => rfl
  · intro _
    apply (updateRelhasindex_guarded _ _).seq
    exact keeps_pure _

/-- `reindex_index` refuses a hypothetical index before it builds. -/
theorem reindexIndex_guarded (indexId : Oid) (skipConstraintChecks : Bool) :
    Keeps (Guarded H) (reindexIndex server indexId skipConstraintChecks) := by
  apply keeps_indexOpen_bind
  intro s index _ _ _
  apply keeps_throwIf_bind
  intro hReal
  apply (indexBuild_guarded server true hReal).bind
  intro broken
  exact keeps_runIf fun _ => updateIndex_guarded _ _ fun _ => rfl

theorem reindexRelation_guarded (relid : Oid) (checkConstraints : Bool) :
    Keeps (Guarded H) (reindexRelation server relid checkConstraints) := by
  apply (keeps_heapOpen relid).seq
  apply Keeps.bind (keeps_get.bind fun _ => keeps_pure _)
  intro indexes
  apply keeps_forM
  intro entry
  apply keeps_indexOpen_bind
  intro s index _ _ _
  exact keeps_runIf fun _ => reindexIndex_guarded server _ _

/-! ### Creating -/

theorem validateIndex_guarded (hOut : ¬ H indexId) :
    Keeps (Guarded H) (validateIndex server indexId) := by
  apply keeps_indexOpen_bind
  intro s index hs hMem hOid
  have hReal : index.indishypothetical = false := hs.real hMem (by rw [hOid]; exact hOut)
  apply (storageCall_guarded server .indexBulkDelete hReal).seq
  apply keeps_get.bind
  intro t
  apply ends_forM_const
  intro entry hEntry
  rw [(mem_replicate.mp hEntry).2]
  exact storageCall_guarded server .indexInsert hReal

theorem buildConcurrently_guarded (hOut : ¬ H indexId) :
    Keeps (Guarded H) (buildConcurrently server indexId) := by
  apply commitTransaction_guarded.seq
  apply keeps_indexOpen_bind
  intro s index hs hMem hOid
  have hReal : index.indishypothetical = false := hs.real hMem (by rw [hOid]; exact hOut)
  apply (indexBuild_guarded server false hReal).seq
  apply Keeps.bind
  · exact updateIndex_guarded indexId _ fun _ => rfl
  intro _
  apply commitTransaction_guarded.seq
  apply (validateIndex_guarded server hOut).seq
  exact updateIndex_guarded indexId _ fun _ => rfl

theorem indexConstraintCreate_guarded (heapRelation : PgClass) (index : PgIndex)
    (constraintName : String) (constraintType : ConstraintType)
    (deferrable initdeferred markAsPrimary updatePgindex : Bool) :
    Keeps (Guarded H) (indexConstraintCreate server heapRelation index constraintName
      constraintType deferrable initdeferred markAsPrimary updatePgindex) := by
  apply keeps_throwIf_bind
  intro _
  apply keeps_throwIf_bind
  intro _
  apply Keeps.seq (keeps_modify fun _ hs => ⟨hs.untouched, hs.known⟩)
  apply (keeps_runIf fun _ => updateRelhasindex_guarded _ _).seq
  exact keeps_runIf fun _ => updateIndex_guarded _ _ fun _ => rfl

theorem registerConstraint_guarded (heapRelation : PgClass) (index : PgIndex) (d : IndexDef) :
    Keeps (Guarded H) (registerConstraint server heapRelation index d) := by
  unfold registerConstraint
  cases d.constraintType with
  | none => exact keeps_throw _
  | some constraintType =>
    exact indexConstraintCreate_guarded server _ _ _ _ _ _ _ _

theorem buildOrRegister_guarded (index : PgIndex) (skipBuild : Bool) :
    Keeps (Guarded H) (buildOrRegister server index skipBuild) := by
  unfold buildOrRegister
  split_ifs with hSkip
  · exact updateRelhasindex_guarded _ _
  · have hReal : index.indishypothetical = false := by
      cases hFlag : index.indishypothetical with
      | false => rfl
      | true => simp [hFlag] at hSkip
    apply (indexBuild_guarded server false hReal).seq
    exact keeps_pure _

end Blocks

theorem guarded_true : Guarded (fun _ => True) s ↔ s.Untouched :=
  ⟨fun h => h.untouched, fun h => ⟨h, fun _ _ _ => trivial⟩⟩

/-- When a part fails, only the calls matter. -/
theorem guarded_orUntouched {α : Type} {m : Exec α} (h : Keeps (Guarded H) m) :
    Ends (Guarded H) m (fun _ => Guarded H) Session.Untouched :=
  h.ends fun _ hs => hs.untouched

variable (server : Server) {pages : List HeapPage}

/-- A new index has an OID of its own; if it is hypothetical, it is the only new
one. -/
theorem updateIndexRelation_ends (heapoid : Oid) (relname : String) (d : IndexDef) :
    Ends Session.Untouched (updateIndexRelation server heapoid relname d)
      (fun index => Guarded fun oid => d.hypothetical ∨ oid ≠ index.indexrelid)
      Session.Untouched := by
  intro s hs
  refine ⟨hs, ?_⟩
  intro index hMem hFlag
  have hFresh : s.cat.pgIndex.get? (server.newOid s.cat) = none := (server.newOid_unused s.cat).2.1
  rcases (Table.mem_insert hFresh).mp hMem with hNew | hOld
  · left
    rw [hNew] at hFlag
    exact hFlag
  · right
    intro (hOid : index.indexrelid = server.newOid s.cat)
    rw [Table.get?_eq_some.mpr ⟨hOld, hOid⟩] at hFresh
    cases hFresh

theorem indexCreate_ends (heapRelation : PgClass)
    (indexRelationName : String) (d : IndexDef) (skipBuild : Bool) :
    Ends Session.Untouched
      (indexCreate server heapRelation indexRelationName d skipBuild)
      (fun indexId => Guarded fun oid => d.hypothetical ∨ oid ≠ indexId)
      Session.Untouched := by
  apply Triple.bind keeps_throwIf
  intro _
  apply Triple.bind keeps_throwIf
  intro _
  apply Triple.bind keeps_get
  intro s
  apply Triple.bind keeps_throwIf
  intro _
  apply (updateIndexRelation_ends server _ _ d).bind
  intro index
  apply (guarded_orUntouched (keeps_runIf fun _ => registerConstraint_guarded server _ _ _)).seq
  apply (guarded_orUntouched (buildOrRegister_guarded server _ _)).seq
  exact ends_pure fun _ hs => hs

/-- `DefineIndex` calls no access method on a hypothetical index, unless it builds
concurrently. -/
theorem defineIndex_untouched {d : IndexDef} (isAlterTable skipBuild : Bool)
    (hCareful : d.hypothetical → d.concurrent = false) :
    Keeps Session.Untouched (defineIndex server d isAlterTable skipBuild) := by
  apply Triple.bind keeps_throwIf
  intro _
  apply Triple.bind keeps_throwIf
  intro _
  apply Triple.bind (keeps_heapOpenrv _)
  intro rel
  apply Triple.seq (keeps_throwSome _)
  apply Triple.bind keeps_get
  intro s
  apply Triple.seq (keeps_checkAccessMethod d)
  apply Triple.seq (keeps_runIf fun _ => keeps_indexCheckPrimaryKey _ _ _)
  apply Triple.bind keeps_throwIf
  intro _
  apply (indexCreate_ends server rel _ d _).bind
  intro indexId
  have hTail : Keeps (Guarded fun oid => d.hypothetical ∨ oid ≠ indexId)
      (runIf d.concurrent (buildConcurrently server indexId)) := by
    apply keeps_runIf
    intro hConcurrent
    apply buildConcurrently_guarded
    rintro (hHyp | hNe)
    · rw [hCareful hHyp] at hConcurrent
      cases hConcurrent
    · exact hNe rfl
  exact Ends.weaken hTail (fun _ hs => hs) (fun _ _ hs => hs.untouched) fun _ hs => hs.untouched

/-! ### Dropping -/

theorem removeRelations_untouched (hypothetical missingOk cascade : Bool) (relnames : List String) :
    Keeps Session.Untouched (removeRelations server hypothetical missingOk cascade relnames) := by
  apply Keeps.bind
  · apply keeps_mapM
    intro relname
    apply keeps_get.bind
    intro s
    cases s.cat.indexNamed relname with
    | none =>
      apply keeps_throwIf.seq
      apply keeps_throwIf.seq
      exact keeps_pure _
    | some index =>
      apply keeps_throwIf.seq
      apply (keeps_checkOwner server _ _).seq
      exact keeps_pure _
  · intro indexes
    apply keeps_forM
    intro index
    apply keeps_get_bind
    intro s hs
    apply (keeps_throwSome _).seq
    apply keeps_throwIf.seq
    -- Only the catalogs change, not the record of calls.
    exact fun _ _ => hs

/-! ### Storing rows -/

theorem execModifyTable_guarded (operation : Dml) (relname : String) (tuples : List NewTuple) :
    Keeps (Guarded H) (execModifyTable server operation relname tuples) := by
  apply (keeps_heapOpenrv relname).bind
  intro relation
  apply Keeps.ite
  · exact keeps_pure _
  apply keeps_get.bind
  intro s
  apply keeps_forM
  intro tuple
  apply keeps_runIf
  intro _
  apply ends_forM_const
  intro index hIndex
  apply keeps_runIf
  intro _
  apply storageCall_guarded
  -- `ExecOpenIndices` was called without the flag.
  unfold execOpenIndices at hIndex
  split_ifs at hIndex
  · cases hIndex
  · simpa using (mem_filter.mp hIndex).2

/-! ### VACUUM -/

/-- The dead row versions a page adds. -/
def HeapPage.dead : HeapPage → Nat
  | .items dead => dead
  | _ => 0

section Vacuum

variable {H : Oid → Prop} (server : Server) {indexes : List PgIndex}

/-- An index pass may come: all indexes are real, or nothing is remembered. -/
def PassSafe (indexes : List PgIndex) (numDeadTuples : Nat) : Prop :=
  (∀ index ∈ indexes, index.indishypothetical = false) ∨ numDeadTuples = 0

theorem lazyVacuumIndexes_guarded {numDeadTuples : Nat} (hSafe : PassSafe indexes numDeadTuples)
    (hDead : 0 < numDeadTuples) : Keeps (Guarded H) (lazyVacuumIndexes server indexes) := by
  rcases hSafe with hReal | hNone
  · apply ends_forM_const
    intro index hIndex
    exact storageCall_guarded server .indexBulkDelete (hReal index hIndex)
  · omega

/-- One page: what is remembered stays safe. -/
theorem lazyScanPage_ends (maxDeadTuples numDeadTuples : Nat) {page : HeapPage}
    (hPage : PassSafe indexes page.dead) (hSafe : PassSafe indexes numDeadTuples) :
    Ends (Guarded H) (lazyScanPage server indexes maxDeadTuples numDeadTuples page)
      (fun remembered s => PassSafe indexes remembered ∧ Guarded H s)
      (Guarded H) := by
  unfold lazyScanPage
  by_cases hSkip : page = .skipped
  · rw [if_pos hSkip]
    exact ends_pure fun _ hs => ⟨hSafe, hs⟩
  rw [if_neg hSkip]
  apply Triple.bind
  · apply keeps_runIf
    intro hFull
    apply lazyVacuumIndexes_guarded server hSafe
    have hBoth := (Bool.and_eq_true _ _).mp hFull
    exact of_decide_eq_true hBoth.2
  · intro _
    cases page with
    | skipped => exact absurd rfl hSkip
    | blank =>
      apply ends_pure
      intro s hs
      refine ⟨?_, hs⟩
      rcases hSafe with hReal | hNone
      · exact Or.inl hReal
      · right
        simp [hNone]
    | items dead =>
      apply ends_pure
      intro s hs
      refine ⟨?_, hs⟩
      rcases hPage with hReal | hNoDead
      · exact Or.inl hReal
      · rcases hSafe with hReal | hNone
        · exact Or.inl hReal
        · right
          have hZero : dead = 0 := hNoDead
          simp [hNone, hZero]

theorem lazyScanHeap_guarded {pages : List HeapPage}
    (hPages : ∀ page ∈ pages, PassSafe indexes page.dead) :
    Keeps (Guarded H) (lazyScanHeap server indexes pages) := by
  apply Triple.bind
  · refine (ends_foldlM (I := fun _ remembered s => PassSafe indexes remembered ∧ Guarded H s)
      pages 0 ?_).pre fun _ hs => ⟨Or.inr rfl, hs⟩
    intro pre page post remembered hSplit s hs
    have hPage := hPages page (by rw [hSplit]; simp)
    exact lazyScanPage_ends server _ _ hPage hs.1 s hs.2
  · intro remembered s hs
    have hPass : Keeps (Guarded H)
        (runIf (decide (remembered > 0)) (lazyVacuumIndexes server indexes)) := by
      apply keeps_runIf
      intro hDead
      exact lazyVacuumIndexes_guarded server hs.1 (of_decide_eq_true hDead)
    refine hPass.bind (fun _ => ?_) s hs.2
    apply keeps_forM
    intro index
    apply keeps_runIf
    intro hReal
    exact storageCall_guarded server .indexVacuumCleanup (by simpa using hReal)

end Vacuum

theorem lazyVacuumRel_untouched (relid : Oid) (hStart : start.Untouched)
    (hPages : ∀ page ∈ pages, PassSafe (start.cat.relationGetIndexList relid) page.dead) :
    Ends (fun s => s = start) (lazyVacuumRel server relid pages)
      (fun _ => Session.Untouched) Session.Untouched := by
  intro s hs
  have hRun : indexList relid s = .ok (start.cat.relationGetIndexList relid) s := by
    rw [hs]
    rfl
  have hRest : Keeps (Guarded fun _ => True)
      (lazyScanHeap server (start.cat.relationGetIndexList relid) pages >>= fun _ =>
        updateRelhasindex relid (!(start.cat.relationGetIndexList relid).isEmpty)) :=
    (lazyScanHeap_guarded server hPages).bind fun _ => updateRelhasindex_guarded _ _
  unfold lazyVacuumRel
  rw [bind_run_ok hRun]
  refine Ends.weaken hRest (fun _ h => guarded_true.mpr h)
    (fun _ _ h => guarded_true.mp h) (fun _ h => guarded_true.mp h) s ?_
  rw [hs]
  exact hStart

/-! ### CLUSTER -/

section Cluster

variable {H : Oid → Prop} (server : Server)

theorem markClustered_indishypothetical (relid indexOid : Oid) (xid : UInt32) (index : PgIndex) :
    (index.markClustered relid indexOid xid).indishypothetical = index.indishypothetical := by
  unfold PgIndex.markClustered
  split_ifs <;> rfl

theorem markIndexClustered_guarded (relid indexOid : Oid) :
    Keeps (Guarded H) (markIndexClustered relid indexOid) := by
  apply keeps_indexOpen_bind
  intro _ index _ _ _
  apply keeps_runIf
  intro _
  apply keeps_modify
  intro s hs
  refine ⟨hs.untouched, ?_⟩
  intro row hRow hFlag
  obtain ⟨old, hOld, hEq⟩ := mem_map.mp hRow
  rw [← hEq, markClustered_indishypothetical] at hFlag
  rw [← hEq, PgIndex.markClustered_indexrelid]
  exact hs.known old hOld hFlag

theorem rebuildRelation_guarded (relid : Oid) {index : Option PgIndex}
    (hReal : ∀ i ∈ index, i.indishypothetical = false) :
    Keeps (Guarded H) (rebuildRelation server relid index) := by
  apply Keeps.bind
  · cases index with
    | none => exact keeps_pure _
    | some index =>
      apply (markIndexClustered_guarded _ _).seq
      exact storageCall_guarded server .indexOrderedRewrite (hReal index rfl)
  · intro _
    exact reindexRelation_guarded server relid false

theorem clusterRel_guarded (tableOid : Oid) {indexOid : Oid} (recheck : Bool)
    (hOut : ¬ H indexOid) :
    Keeps (Guarded H) (clusterRel server tableOid indexOid recheck) := by
  apply keeps_get.bind
  intro s
  cases s.cat.pgClass.get? tableOid with
  | none => exact keeps_pure _
  | some oldHeap =>
    apply Keeps.ite
    · exact keeps_pure _
    apply keeps_indexOpen_bind
    intro t index ht hMem hOid
    have hReal : index.indishypothetical = false := ht.real hMem (by rw [hOid]; exact hOut)
    apply (keeps_checkIndexIsClusterable _ _).seq
    apply rebuildRelation_guarded
    intro i hi
    cases hi
    exact hReal

end Cluster

/-- The OIDs of the hypothetical indexes of a state. -/
def Session.HypOid (s : Session) (oid : Oid) : Prop :=
  ∃ index ∈ s.cat.pgIndex.rows, index.indishypothetical = true ∧
    index.indexrelid = oid

theorem guarded_start (h : s.Untouched) : Guarded s.HypOid s :=
  ⟨h, fun index hMem hFlag => ⟨index, hMem, hFlag, rfl⟩⟩

theorem not_hypOid (hMem : index ∈ s.cat.pgIndex.rows)
    (hReal : index.indishypothetical = false) : ¬ s.HypOid index.indexrelid := by
  rintro ⟨other, hOther, hFlag, hOid⟩
  rw [s.cat.pgIndex.eq_of_key hOther hMem hOid, hReal] at hFlag
  cases hFlag

/-- From a state without calls on hypothetical indexes, a part that keeps `Guarded`
for the OIDs of that state makes none. -/
theorem untouched_of_guarded {α : Type} {m : Exec α} (hStart : start.Untouched)
    (h : Keeps (Guarded start.HypOid) m) :
    Ends (fun s => s = start) m (fun _ => Session.Untouched) Session.Untouched := by
  apply Triple.fromState _ (guarded_start hStart)
  exact Ends.weaken h (fun _ hs => hs) (fun _ _ hs => hs.untouched) fun _ hs => hs.untouched

theorem untouched_of_eq (hStart : start.Untouched) (s : Session) (hs : s = start) :
    s.Untouched := by
  rw [hs]
  exact hStart

/-- `CLUSTER` of one table. An index named in the command is tested; a remembered
one is not. -/
theorem clusterTable_untouched (relname : String)
    (indexname : Option String) (hStart : start.Untouched) (hReal : indexname = none →
      ∀ relation, start.cat.tableNamed relname = some relation →
      ∀ index, start.cat.clusteredIndex relation.oid = some index →
        index.indishypothetical = false) :
    Ends (fun s => s = start) (clusterTable server relname indexname)
      (fun _ => Session.Untouched) Session.Untouched := by
  have hEq := untouched_of_eq hStart
  apply ((heapOpenrv_ends relname start).orElse hEq).bind
  intro rel
  apply ends_of_and
  intro hRel
  apply Triple.seq ((keeps_checkOwner server rel.oid relname).ends hEq)
  cases hName : indexname with
  | none =>
    apply ends_get_bind
    rintro s rfl
    cases hIndex : s.cat.clusteredIndex rel.oid with
    | none => exact ends_throw hEq
    | some index =>
      have hMem := (Catalog.mem_relationGetIndexList.mp (mem_of_find?_eq_some hIndex)).1
      have hOut := not_hypOid hMem (hReal hName rel hRel index hIndex)
      exact untouched_of_guarded hStart (clusterRel_guarded server _ false hOut)
  | some name =>
    apply ((indexOpenNamed_ends name _ start).orElse hEq).bind
    intro index
    apply ends_of_and
    intro hNamed
    apply (ends_throwIf hEq).seq
    apply ends_of_and
    intro hFlag
    have hOut := not_hypOid (Catalog.mem_of_indexNamed hNamed) hFlag
    exact untouched_of_guarded hStart (clusterRel_guarded server _ false hOut)

/-- `CLUSTER` of everything, if all remembered indexes are real. -/
theorem clusterAll_untouched (hStart : start.Untouched)
    (hReal : ∀ index ∈ getTablesToCluster server start.cat, index.indishypothetical = false) :
    Ends (fun s => s = start) (clusterAll server) (fun _ => Session.Untouched)
      Session.Untouched := by
  apply ends_get_bind
  rintro s rfl
  apply untouched_of_guarded hStart
  apply commitTransaction_guarded.seq
  apply ends_forM_const
  intro index hIndex
  have hMem : index ∈ s.cat.pgIndex.rows := (mem_filter.mp (mem_reverse.mp hIndex)).1
  apply (clusterRel_guarded server _ true (not_hypOid hMem (hReal index hIndex))).seq
  exact commitTransaction_guarded

theorem vacuumRel_untouched (full : Bool) (relname : String)
    (hStart : start.Untouched) (hPages : full = false →
      ∀ relation, start.cat.tableNamed relname = some relation →
      ∀ page ∈ pages, PassSafe (start.cat.relationGetIndexList relation.oid) page.dead) :
    Ends (fun s => s = start) (vacuumRel server full relname pages)
      (fun _ => Session.Untouched) Session.Untouched := by
  have hEq := untouched_of_eq hStart
  apply ((heapOpenrv_ends relname start).orElse hEq).bind
  intro rel
  apply ends_of_and
  intro hRel
  cases server.owns rel.oid with
  | false => exact ends_pure hEq
  | true =>
    cases hFull : full with
    | true =>
      have hKeeps : Keeps (Guarded start.HypOid) (rebuildRelation server rel.oid none) :=
        rebuildRelation_guarded server rel.oid fun i hi => by cases hi
      exact untouched_of_guarded hStart hKeeps
    | false =>
      exact lazyVacuumRel_untouched server rel.oid hStart (hPages hFull rel hRel)

/-! ## Runs of commands -/

inductive Command where
  | createIndex (d : IndexDef)
  | dropIndex (hypothetical missingOk cascade : Bool) (relnames : List String)
  | modifyTable (operation : Dml) (relname : String) (tuples : List NewTuple)
  | vacuum (full : Bool) (relname : String) (pages : List HeapPage)
  | reindexIndex (relname : String)
  | reindexTable (relname : String)
  | reindexDatabase (doSystem doUser : Bool)
  | clusterOn (relname indexname : String)
  | cluster (relname : String) (indexname : Option String)
  | clusterAll

def runCommand (server : Server) : Command → Exec Unit
  | .createIndex d => defineIndex server d false false
  | .dropIndex hypothetical missingOk cascade relnames =>
    removeRelations server hypothetical missingOk cascade relnames
  | .modifyTable operation relname tuples =>
    execModifyTable server operation relname tuples
  | .vacuum full relname pages => vacuumRel server full relname pages
  | .reindexIndex relname => reindexIndexCommand server relname
  | .reindexTable relname => reindexTable server relname
  | .reindexDatabase doSystem doUser => reindexDatabase server doSystem doUser
  | .clusterOn relname indexname => atExecClusterOn server relname indexname
  | .cluster relname indexname => clusterTable server relname indexname
  | .clusterAll => clusterAll server

/-- A command, each time with its own server, run as a transaction. -/
def Session.step (s : Session) (next : Server × Command) : Session :=
  execute (runCommand next.1 next.2) s

/-- The forms of the commands that leave hypothetical indexes alone. -/
def Careful (s : Session) : Server × Command → Prop
  | (_, .createIndex d) => d.hypothetical = true → d.concurrent = false
  | (_, .vacuum full relname pages) => full = false →
      ∀ relation, s.cat.tableNamed relname = some relation →
        (∀ index ∈ s.cat.relationGetIndexList relation.oid,
          index.indishypothetical = false) ∨
        ∀ page ∈ pages, page.dead = 0
  | (_, .cluster relname indexname) => indexname = none →
      ∀ relation, s.cat.tableNamed relname = some relation →
      ∀ index, s.cat.clusteredIndex relation.oid = some index →
        index.indishypothetical = false
  | (server, .clusterAll) => ∀ index ∈ getTablesToCluster server s.cat,
      index.indishypothetical = false
  | _ => True

theorem step_untouched (s : Session) (next : Server × Command) (hs : s.Untouched)
    (hCareful : Careful s next) : (s.step next).Untouched := by
  obtain ⟨server, command⟩ := next
  apply execute_of_ends _ (fun _ h => h) fun _ h => h
  cases command with
  | createIndex d =>
    exact Triple.fromState (defineIndex_untouched server false false hCareful) hs
  | dropIndex hypothetical missingOk cascade relnames =>
    exact Triple.fromState
      (removeRelations_untouched server hypothetical missingOk cascade relnames) hs
  | modifyTable operation relname tuples =>
    exact untouched_of_guarded hs (execModifyTable_guarded server operation relname tuples)
  | vacuum full relname pages =>
    apply vacuumRel_untouched server full relname hs
    intro hFull relation hRelation page hPage
    rcases hCareful hFull relation hRelation with hReal | hNoDead
    · exact Or.inl hReal
    · exact Or.inr (hNoDead page hPage)
  | reindexIndex relname =>
    apply untouched_of_guarded hs
    apply (keeps_indexOpenNamed _ _).bind
    intro index
    apply (keeps_checkOwner server _ _).seq
    exact keeps_runIf fun _ => reindexIndex_guarded server _ false
  | reindexTable relname =>
    apply untouched_of_guarded hs
    apply (keeps_heapOpenrv relname).bind
    intro relation
    apply (keeps_checkOwner server _ _).seq
    exact reindexRelation_guarded server relation.oid false
  | reindexDatabase doSystem doUser =>
    apply untouched_of_guarded hs
    apply keeps_get.bind
    intro _
    apply commitTransaction_guarded.bind
    intro _
    apply keeps_forM
    intro relid
    exact (reindexRelation_guarded server relid false).bind fun _ =>
      commitTransaction_guarded
  | clusterOn relname indexname =>
    apply untouched_of_guarded hs
    apply (keeps_heapOpenrv relname).bind
    intro relation
    apply (keeps_atSimplePermissions server relation).seq
    apply (keeps_indexOpenNamed _ _).bind
    intro index
    apply (keeps_checkIndexIsClusterable _ _).seq
    exact markIndexClustered_guarded _ _
  | cluster relname indexname =>
    exact clusterTable_untouched server relname indexname hs hCareful
  | clusterAll => exact clusterAll_untouched server hs hCareful

/-- **Nothing to touch.**  In every run of careful commands, from any catalogs and on
any servers, no access method is ever called on a hypothetical index. -/
theorem storage_untouched (start : Session) (hStart : start.calls = [])
    (run : List (Server × Command)) (hRun : AllSteps Session.step Careful start run) :
    ∀ s ∈ states Session.step start run, s.Untouched := by
  apply invariant_of_allSteps step_untouched run start _ hRun
  intro call hCall
  rw [hStart] at hCall
  cases hCall

/-- A hypothetical index, a real one built concurrently, a row, a `VACUUM` that finds
nothing dead, and `CLUSTER` by the real index. -/
def carefulRun : List (Server × Command) :=
  [(calmServer, .createIndex (indexOnT "h" true false)),
    (calmServer, .createIndex (indexOnT "i" false true)),
    (calmServer, .modifyTable .insert "t" [⟨false, fun _ => true⟩]),
    (calmServer, .vacuum false "t" [.items 0]),
    (calmServer, .cluster "t" (some "i"))]

theorem storage_untouched_carefulRun :
    AllSteps Session.step Careful plainSession carefulRun ∧
      ∀ s ∈ states Session.step plainSession carefulRun, s.Untouched := by
  have hRun : AllSteps Session.step Careful plainSession carefulRun := by
    refine ⟨fun _ => rfl, ?_, trivial, ?_, ?_, trivial⟩
    · intro hFlag
      cases hFlag
    · intro _ relation _
      right
      exact forall_mem_singleton.mpr rfl
    · intro hName
      cases hName
  exact ⟨hRun, storage_untouched plainSession rfl carefulRun hRun⟩

/-- The three forms that are not careful. Each hands the hypothetical index `h` to
an access method. -/
theorem storage_touched :
    (¬ (plainSession.step (calmServer, .createIndex (indexOnT "h" true true))).Untouched) ∧
    (¬ ((plainSession.step (calmServer, .createIndex (indexOnT "h" true false))).step
      (calmServer, .vacuum false "t" [.items 1])).Untouched) ∧
    ¬ (((plainSession.step (calmServer, .createIndex (indexOnT "h" true false))).step
      (calmServer, .clusterOn "t" "h")).step (calmServer, .cluster "t" none)).Untouched := by
  unfold Session.Untouched
  refine ⟨?_, ?_, ?_⟩ <;> decide +kernel

end PgTuning.Backend
