import PgTuning.Backend.SoundCatalog
import PgTuning.Backend.ConstraintCommands
import PgTuning.Backend.Maintenance
import PgTuning.Lib.Run

/-!
# Constraints rest on real indexes

Every command keeps the catalogs sound, except where a statement names a hypothetical
index itself (`ADD PRIMARY KEY USING INDEX`) or by its columns (`REFERENCES t (a)`).
`CarefulDdl` excludes these two. In sound catalogs the index of every constraint gets
an entry for every row inserted.
-/

namespace PgTuning.Backend

open PgTuning.Lib List Catalog
open PgTuning.Lib.Attempt
open PgTuning.Lib.Outcome

section Commands

variable {base : Catalog} (server : Server) {unset : Oid → Prop}

/-! ### Key constraints -/

theorem renameRelation_growing (oid : Oid) (newrelname : String) :
    Keeps (Growing unset base) (renameRelation oid newrelname) := by
  apply keeps_get_bind
  intro s hs
  apply keeps_throwIf.bind
  intro _ _ _
  have hf : Catalog.FlagsKept fun row => { row with relname := newrelname } :=
    ⟨fun _ => rfl, fun _ => rfl, fun _ => rfl⟩
  exact ⟨hs.sound.updateIndex hf fun row hRow _ => hs.sound.primary row hRow,
    hs.grown.trans (updateIndex_extends hf), hs.committed⟩

theorem atExecAddIndexConstraint_growing (rel : PgClass)
    {index : PgIndex} (c : KeyConstraint) (hReal : base.RealIndex index.indexrelid) :
    Keeps (Growing unset base) (atExecAddIndexConstraint server rel index c) := by
  apply keeps_throwIf.seq
  apply (keeps_runIf fun _ => renameRelation_growing _ _).seq
  apply (keeps_runIf fun _ => keeps_indexCheckPrimaryKey _ _ _).seq
  exact indexConstraintCreate_growing server _ _ _ _ _ _ _ hReal

theorem transformIndexConstraint_grounded (relname : String) (c : KeyConstraint) :
    (transformIndexConstraint relname c).Grounded :=
  ⟨fun _ => rfl, fun _ => rfl, rfl⟩

end Commands

section Alter

variable (server : DdlServer) {start : Session} (relname : String) {index : IndexDef}
  {cat : Catalog}

theorem alterTableAddKey_steady (c : KeyConstraint) (hStart : Steady start)
    (hReal : ∀ name ∈ c.indexname, ∀ index ∈ start.cat.indexNamed name,
      index.indishypothetical = false) :
    Ends (fun s => s = start) (alterTableAddKey server relname c) (fun _ => Steady)
      Recoverable := by
  have hEq := recoverable_of_eq hStart
  apply ((heapOpenrv_ends relname start).orElse hEq).bind
  intro rel
  apply ends_of_and
  intro _
  cases hName : c.indexname with
  | none =>
    apply Triple.seq (ends_ofExcept hEq fun _ _ => trivial)
    apply ends_of_and
    intro _
    apply Triple.seq ((keeps_atSimplePermissions _ rel).ends hEq)
    exact defineIndex_steady server.toServer
      (transformIndexConstraint_grounded relname c) true false hStart
  | some name =>
    apply ((indexOpenNamed_ends name _ start).orElse hEq).bind
    intro index
    apply ends_of_and
    intro hIndex
    have hFound : start.cat.RealIndex index.indexrelid :=
      .of_mem (mem_of_indexNamed hIndex) (hReal name hName index hIndex)
    apply Triple.bind (keeps_get.ends hEq)
    intro s
    apply Triple.seq (ends_ofExcept hEq fun _ _ => trivial)
    apply ends_of_and
    intro _
    apply Triple.seq ((keeps_atSimplePermissions _ rel).ends hEq)
    exact steady_of_growing hStart (atExecAddIndexConstraint_growing server.toServer rel c hFound)

/-! ### Foreign keys -/

/-- The index a foreign key references is real: a primary key is, and other indexes
that match must be. -/
theorem fkeyIndex_real {unset : Oid → Prop} (h : cat.Sound unset) {pkrel : PgClass}
    {pkAttrs : List Int} {index : PgIndex} (hMatch : pkAttrs ≠ [] →
      ∀ found ∈ (cat.relationGetIndexList pkrel.oid).find? (PgIndex.matchesKey pkAttrs),
        found.indishypothetical = false) (hFound : fkeyIndex cat pkrel pkAttrs = .ok index) :
    cat.RealIndex index.indexrelid := by
  unfold fkeyIndex at hFound
  split_ifs at hFound with hEmpty
  · unfold transformFkeyGetPrimaryKey at hFound
    cases hFind : (cat.relationGetIndexList pkrel.oid).find? PgIndex.indisprimary with
    | none =>
      rw [hFind] at hFound
      cases hFound
    | some found =>
      simp only [hFind] at hFound
      split_ifs at hFound
      cases hFound
      have hMem := mem_relationGetIndexList.mp (mem_of_find?_eq_some hFind)
      exact .of_mem hMem.1 (h.primary index hMem.1 (find?_some hFind))
  · unfold transformFkeyCheckAttrs at hFound
    cases hFind : (cat.relationGetIndexList pkrel.oid).find? (PgIndex.matchesKey pkAttrs) with
    | none =>
      simp only [hFind] at hFound
      split_ifs at hFound
    | some found =>
      simp only [hFind] at hFound
      cases hFound
      have hMem := mem_relationGetIndexList.mp (mem_of_find?_eq_some hFind)
      have hNonempty : pkAttrs ≠ [] := fun hNil => hEmpty (by rw [hNil]; rfl)
      exact .of_mem hMem.1 (hMatch hNonempty index hFind)

theorem alterTableAddForeignKey_steady (fk : ForeignKey) (hStart : Steady start)
    (hMatch : fk.pkAttrs ≠ [] → ∀ pkrel ∈ start.cat.tableNamed fk.pktable,
      ∀ index ∈ (start.cat.relationGetIndexList pkrel.oid).find?
        (PgIndex.matchesKey fk.pkAttrs), index.indishypothetical = false) :
    Ends (fun s => s = start) (alterTableAddForeignKey server fk) (fun _ => Steady)
      Recoverable := by
  have hEq := recoverable_of_eq hStart
  apply ((heapOpenrv_ends fk.relation start).orElse hEq).bind
  intro rel
  apply ends_of_and
  intro _
  apply Triple.seq ((keeps_atSimplePermissions _ rel).ends hEq)
  apply Triple.bind (keeps_get.ends hEq)
  intro _
  apply Triple.bind (keeps_throwIf.ends hEq)
  intro _
  apply ((heapOpenrv_ends fk.pktable start).orElse hEq).bind
  intro pkrel
  apply ends_of_and
  intro hPk
  apply Triple.seq (keeps_throwIf.ends hEq)
  apply Triple.seq ((keeps_throwSome _).ends hEq)
  apply ends_get_bind
  rintro s rfl
  apply Triple.bind (ends_ofExcept hEq fun index hFound =>
    fkeyIndex_real hStart.cat (fun hCols => hMatch hCols pkrel hPk) hFound)
  intro index
  apply ends_of_and
  intro hReal
  apply steady_of_growing hStart
  apply (keeps_throwSome _).seq
  apply keeps_throwIf.seq
  apply keeps_throwIf.seq
  apply (keeps_throwSome _).seq
  apply (createConstraintEntry_growing _ fun _ => hReal).seq
  exact keeps_throwSome _

/-! ### New tables -/

/-- A cloned index is hypothetical only if it is for no key. -/
theorem generateClonedIndexStmt_grounded {unset : Oid → Prop} (h : cat.Sound unset)
    (relname : String) (attmap : Int → Int) {index : PgIndex} (hMem : index ∈ cat.pgIndex.rows) :
    (generateClonedIndexStmt cat relname attmap index).Grounded := by
  refine ⟨?_, h.primary index hMem, rfl⟩
  intro hCon
  have hSome : (getIndexConstraint cat index.indexrelid).isSome := by
    unfold generateClonedIndexStmt at hCon
    split_ifs at hCon with hKey
    · exact hCon
    · cases hCon
  obtain ⟨con, hFind⟩ := Option.isSome_iff_exists.mp hSome
  have hReal := h.constraints con (mem_of_find?_eq_some hFind)
  have hOid : con.conindid = index.indexrelid := by
    have hTest := find?_some hFind
    simp only [Bool.and_eq_true, beq_iff_eq] at hTest
    exact hTest.1
  rw [hOid] at hReal
  exact hReal.real hMem

theorem mergeIndex_grounded (hIndex : index.Grounded) :
    ∀ alist : List IndexDef, (∀ d ∈ alist, d.Grounded) →
      ∀ d ∈ mergeIndex server alist index, d.Grounded := by
  intro alist
  induction alist with
  | nil =>
    intro _
    exact forall_mem_singleton.mpr hIndex
  | cons prior alist ih =>
    intro hList d hd
    have hPrior : prior.Grounded := hList prior (by simp)
    have hRest : ∀ e ∈ alist, e.Grounded := fun e he => hList e (by simp [he])
    unfold mergeIndex at hd
    split_ifs at hd
    · exact forall_mem_cons.mpr ⟨{ hPrior with }, hRest⟩ d hd
    · exact forall_mem_cons.mpr ⟨hPrior, ih hRest⟩ d hd

theorem foldl_mergeIndex_grounded :
    ∀ (others alist : List IndexDef), (∀ d ∈ others, d.Grounded) →
      (∀ d ∈ alist, d.Grounded) →
      ∀ d ∈ others.foldl (mergeIndex server) alist, d.Grounded := by
  intro others
  induction others with
  | nil => exact fun _ _ hList => hList
  | cons index others ih =>
    intro alist hOthers hList
    apply ih (mergeIndex server alist index) fun d hd => hOthers d (by simp [hd])
    exact mergeIndex_grounded server (hOthers index (by simp)) alist hList

/-- All definitions collected so far are grounded. -/
def IndexList.Grounded (cxt : IndexList) : Prop :=
  (∀ d ∈ cxt.1, IndexDef.Grounded d) ∧ ∀ d ∈ cxt.2, IndexDef.Grounded d

theorem appendIndex_grounded {cxt : IndexList} (hCxt : IndexList.Grounded cxt)
    (hIndex : index.Grounded) : Yields IndexList.Grounded (appendIndex relname cxt index) := by
  apply Yields.after
  intro _
  apply yields_pure
  constructor
  · intro d hd
    split_ifs at hd
    · cases hd
      exact hIndex
    · exact hCxt.1 d hd
  · exact forall_mem_concat hCxt.2 hIndex

theorem transformIndexConstraints_grounded (constraints : List KeyConstraint)
    {inhIndexes : List IndexDef} (hInh : ∀ d ∈ inhIndexes, d.Grounded) :
    Yields (fun alist => ∀ d ∈ alist, IndexDef.Grounded d)
      (transformIndexConstraints server relname constraints inhIndexes) := by
  have hNil : IndexList.Grounded (none, []) := by
    constructor
    · intro d hd
      cases hd
    · intro d hd
      cases hd
  apply Yields.bind
  · apply yields_foldlM constraints _ hNil
    intro cxt hCxt c _
    apply (appendIndex_grounded relname hCxt (transformIndexConstraint_grounded relname c)).bind
    intro cxt' hCxt'
    apply Yields.after
    intro _
    apply Yields.after
    intro _
    exact yields_pure hCxt'
  intro cxt hCxt
  apply Yields.bind
  · apply yields_foldlM inhIndexes _ hCxt
    intro cxt' hCxt' d hd
    exact appendIndex_grounded relname hCxt' (hInh d hd)
  intro cxt' hCxt'
  apply yields_pure
  apply foldl_mergeIndex_grounded
  · intro d hd
    exact hCxt'.2 d (mem_filter.mp hd).1
  · intro d hd
    exact hCxt'.1 d (Option.mem_toList.mp hd)

theorem transformInhRelation_grounded (like : LikeClause) (hStart : Steady start) :
    Ends (fun s => s = start) (transformInhRelation server relname like)
      (fun indexes s => s = start ∧ ∀ d ∈ indexes, IndexDef.Grounded d)
      Recoverable := by
  have hEq := recoverable_of_eq hStart
  apply Triple.bind ((keeps_heapOpenrv like.relation).ends hEq)
  intro relation
  apply Triple.seq (keeps_throwIf.ends hEq)
  apply ends_get_bind
  rintro s rfl
  apply ends_pure
  intro t ht
  refine ⟨ht, ?_⟩
  intro d hd
  split_ifs at hd
  · obtain ⟨index, hIndex, hClone⟩ := mem_map.mp hd
    rw [← hClone]
    exact generateClonedIndexStmt_grounded hStart.cat relname like.attmap
      (mem_relationGetIndexList.mp hIndex).1
  · cases hd

theorem heapCreateWithCatalog_steady :
    Ends Steady (heapCreateWithCatalog server.toServer relname) (fun _ => Steady)
      Recoverable := by
  apply ends_get_bind
  intro s hs
  apply Triple.bind (keeps_throwIf.ends (recoverable_of_eq hs))
  intro _ _ _
  exact ⟨hs.cat.insertClass (server.newOid_unused s.cat).1, hs.committed⟩

theorem createTable_steady (stmt : CreateStmt) (hStart : Steady start) :
    Ends (fun s => s = start) (createTable server stmt) (fun _ => Steady)
      Recoverable := by
  have hEq := recoverable_of_eq hStart
  apply Triple.bind (keeps_get.ends hEq)
  intro s
  split_ifs
  · apply ends_pure
    intro t ht
    rw [ht]
    exact hStart
  apply Triple.seq ((keeps_throwSome _).ends hEq)
  have hClones : Ends (fun s => s = start)
      (stmt.likes.mapM (transformInhRelation server stmt.relname))
      (fun lists s => s = start ∧ ∀ d ∈ lists.flatten, IndexDef.Grounded d)
      Recoverable := by
    -- The lists collected so far hold grounded definitions only.
    refine (ends_mapM (I := fun _ lists s => s = start ∧
      ∀ d ∈ lists.flatten, IndexDef.Grounded d) stmt.likes ?_).pre ?_
    · intro _ like _ lists _
      apply ends_of_and
      intro hLists
      refine (transformInhRelation_grounded server stmt.relname like hStart).post ?_
      rintro indexes t ⟨ht, hIndexes⟩
      refine ⟨ht, ?_⟩
      intro d hd
      rw [flatten_append, mem_append] at hd
      rcases hd with hOld | hNew
      · exact hLists d hOld
      · exact hIndexes d (by simpa using hNew)
    · intro t ht
      exact ⟨ht, fun d hd => by cases hd⟩
  apply hClones.bind
  intro lists
  apply ends_of_and
  intro hLists
  apply Triple.bind (ends_ofExcept hEq
    (transformIndexConstraints_grounded server stmt.relname stmt.constraints hLists).ok)
  intro alist
  apply ends_of_and
  intro hAlist
  apply ((heapCreateWithCatalog_steady server stmt.relname).fromState hStart).seq
  apply ends_forM_const
  intro d hd t ht
  exact defineIndex_steady server.toServer (hAlist d hd) false false ht t rfl

end Alter

/-! ## Maintenance by the executor -/

/-- An insert that succeeds has made an entry in every index that needs one. -/
theorem execInsertIndexTuples_inserts (server : Server) {indices : List PgIndex} {tuple : NewTuple}
    {s t : Session} (hRun : execInsertIndexTuples server indices tuple s = .ok () t) :
    ∃ new, t.calls = new ++ s.calls ∧
      ∀ index ∈ indices, tuple.needsEntry index →
        ⟨.indexInsert, index⟩ ∈ new := by
  -- Indexed by the indexes done; each pass puts at most one call in front.
  have hLoop := ends_forM (X := fun _ (_ : Session) => True)
    (I := fun done u => ∃ new, u.calls = new ++ s.calls ∧
      ∀ index ∈ done, tuple.needsEntry index → (⟨.indexInsert, index⟩ : StorageCall) ∈ new)
    (f := fun index => runIf (tuple.needsEntry index)
      (storageCall server .indexInsert index)) indices
  refine (hLoop ?_).ok ⟨[], rfl, fun index h => by cases h⟩ hRun
  rintro pre index _ _ u ⟨new, hNew, hDone⟩
  cases hTest : tuple.needsEntry index with
  | false =>
    refine ⟨new, hNew, forall_mem_concat hDone fun hNeeds => ?_⟩
    rw [hTest] at hNeeds
    cases hNeeds
  | true =>
    refine (storageCall_ends server
      (Q := fun v => v.calls = ⟨.indexInsert, index⟩ :: u.calls) fun s hs => by rw [hs]).weaken
      (fun _ h => h) ?_ (fun _ _ => trivial) u rfl
    intro _ v hv
    refine ⟨⟨.indexInsert, index⟩ :: new, by rw [hv, hNew]; rfl, ?_⟩
    refine forall_mem_concat (fun other hOld hNeeds => ?_) fun _ => mem_cons_self
    exact mem_cons_of_mem _ (hDone other hOld hNeeds)

/-- Every row inserted into the table gets its entry in the index (unless the index
is partial and leaves it out). -/
def Catalog.Maintains (cat : Catalog) (index : PgIndex) : Prop :=
  ∀ relation ∈ cat.pgClass.rows, relation.oid = index.indrelid →
  ∀ (server : Server) (tuple : NewTuple) (s t : Session),
    index.indpred = [] ∨ tuple.satisfies index.indexrelid = true →
    execInsertIndexTuples server (execOpenIndices cat relation false) tuple s =
      .ok () t →
    ∃ new, t.calls = new ++ s.calls ∧ ⟨.indexInsert, index⟩ ∈ new

theorem Catalog.Sound.maintains {cat : Catalog} (h : cat.Sound noTable)
    {index : PgIndex} (hMem : index ∈ cat.pgIndex.rows)
    (hReal : index.indishypothetical = false) : cat.Maintains index := by
  intro relation hRelation hOid server tuple s t hPred hRun
  obtain ⟨owner, hOwner, hSame, hFlag⟩ := h.tables index hMem
  have hHas : relation.relhasindex := by
    rw [cat.pgClass.eq_of_key hRelation hOwner (hOid.trans hSame.symm)]
    exact hFlag.resolve_right id
  have hOpen : index ∈ execOpenIndices cat relation false := by
    unfold execOpenIndices
    rw [hHas]
    simp only [Bool.not_true, Bool.false_eq_true, if_false]
    rw [mem_filter, mem_relationGetIndexList, hReal]
    exact ⟨⟨hMem, hOid.symm⟩, rfl⟩
  have hNeeds : tuple.needsEntry index := by
    unfold NewTuple.needsEntry
    rw [h.ready index hMem]
    rcases hPred with hNone | hSat
    · rw [hNone]
      rfl
    · rw [hSat, Bool.or_true]
      rfl
  obtain ⟨new, hCalls, hAll⟩ := execInsertIndexTuples_inserts server hRun
  exact ⟨new, hCalls, hAll index hOpen hNeeds⟩

/-- The index recorded for a constraint is real, and the executor maintains it. -/
def Catalog.ConstraintsEnforced (cat : Catalog) : Prop :=
  ∀ con ∈ cat.pgConstraint.rows, ∀ index ∈ cat.pgIndex.rows,
    index.indexrelid = con.conindid →
    index.indishypothetical = false ∧ cat.Maintains index

theorem Catalog.Sound.enforced {cat : Catalog} (h : cat.Sound noTable) :
    cat.ConstraintsEnforced := by
  intro con hCon index hMem hOid
  have hFound := h.constraints con hCon
  rw [← hOid] at hFound
  have hReal := hFound.real hMem
  exact ⟨hReal, h.maintains hMem hReal⟩

/-! ## Runs of commands -/

inductive DdlCommand where
  | createIndex (stmt : CreateIndexStmt)
  | addKey (relname : String) (c : KeyConstraint)
  | addForeignKey (fk : ForeignKey)
  | createTable (stmt : CreateStmt)

def runDdl (server : DdlServer) : DdlCommand → Exec Unit
  | .createIndex stmt => defineIndex server.toServer stmt.toIndexDef false false
  | .addKey relname c => alterTableAddKey server relname c
  | .addForeignKey fk => alterTableAddForeignKey server fk
  | .createTable stmt => createTable server stmt

def Session.ddlStep (s : Session) (next : DdlServer × DdlCommand) : Session :=
  execute (runDdl next.1 next.2) s

/-- No hypothetical index is named in a `USING INDEX`, and none is the first to match
the columns a foreign key references. -/
def CarefulDdl (s : Session) (next : DdlServer × DdlCommand) : Prop :=
  match next.2 with
  | .addKey _ c => ∀ name ∈ c.indexname, ∀ index ∈ s.cat.indexNamed name,
      index.indishypothetical = false
  | .addForeignKey fk => fk.pkAttrs ≠ [] →
      ∀ pkrel ∈ s.cat.tableNamed fk.pktable,
      ∀ index ∈ (s.cat.relationGetIndexList pkrel.oid).find?
        (PgIndex.matchesKey fk.pkAttrs), index.indishypothetical = false
  | _ => True

theorem ddlStep_steady (s : Session) (next : DdlServer × DdlCommand) (hs : Steady s)
    (hCareful : CarefulDdl s next) : Steady (s.ddlStep next) := by
  obtain ⟨server, command⟩ := next
  apply execute_of_ends (Q := Steady) _ (fun _ h => ⟨h.cat, h.cat⟩) fun _ h => ⟨h, h⟩
  cases command with
  | createIndex stmt =>
    have hGrounded : stmt.toIndexDef.Grounded := by
      refine ⟨?_, ?_, stmt.concurrent_unset⟩
      · intro hCon
        rw [stmt.isconstraint_unset] at hCon
        cases hCon
      · intro hPrimary
        rw [stmt.primary_unset] at hPrimary
        cases hPrimary
    exact defineIndex_steady server.toServer hGrounded false false hs
  | addKey relname c => exact alterTableAddKey_steady server relname c hs hCareful
  | addForeignKey fk => exact alterTableAddForeignKey_steady server fk hs hCareful
  | createTable stmt => exact createTable_steady server stmt hs

/-- **Constraints are enforced.**  In every run of careful commands that starts from
sound catalogs, every constraint rests on a real index that the executor maintains,
in every state reached. -/
theorem constraints_enforced (start : Session) (hStart : Steady start)
    (run : List (DdlServer × DdlCommand)) (hRun : AllSteps Session.ddlStep CarefulDdl start run) :
    ∀ s ∈ states Session.ddlStep start run, s.cat.ConstraintsEnforced := by
  intro s hs
  have hSteady := invariant_of_allSteps ddlStep_steady run start hStart hRun s hs
  exact hSteady.cat.enforced

def calmDdlServer : DdlServer where
  toServer := calmServer
  attname := fun _ _ => "a"
  chooseConstraintName := fun _ _ => "k"
  checkForeignKey := fun _ => none
  checkFkeyPermissions := fun _ => none
  checkFkeyOperators := fun _ _ => none
  validateForeignKey := fun _ => none
  checkTable := fun _ => none
  maySelect := fun _ => true
  sameNames := fun _ _ => true

def uniqueIndexOnT (idxname : String) (hypothetical : Bool) : CreateIndexStmt where
  toIndexDef := { indexOnT idxname hypothetical false with unique := true }
  exclusion_unset := rfl
  primary_unset := rfl
  isconstraint_unset := rfl
  concurrent_unset := rfl

def primaryKeyUsing (indexname : String) : KeyConstraint where
  contype := .primary
  conname := none
  accessMethod := .btree
  columns := []
  indexprs := []
  whereClause := []
  deferrable := false
  initdeferred := false
  indexname := some indexname

def referenceToT (pkAttrs : List Int) : ForeignKey where
  relation := "t"
  conname := none
  pktable := "t"
  fkAttrs := [2]
  pkAttrs := pkAttrs
  deferrable := false
  initdeferred := false
  skipValidation := false

/-- A real and a hypothetical unique index; the real one becomes the primary key,
foreign keys reference it with and without its column, and the table is cloned. -/
def carefulDdlRun : List (DdlServer × DdlCommand) :=
  [(calmDdlServer, .createIndex (uniqueIndexOnT "u" false)),
    (calmDdlServer, .createIndex (uniqueIndexOnT "h" true)),
    (calmDdlServer, .addKey "t" (primaryKeyUsing "u")),
    (calmDdlServer, .addForeignKey (referenceToT [])),
    (calmDdlServer, .addForeignKey (referenceToT [1])),
    (calmDdlServer, .createTable ⟨"c", false, [⟨"t", true, id⟩], []⟩)]

theorem constraints_enforced_carefulDdlRun :
    (∀ s ∈ states Session.ddlStep plainSession carefulDdlRun, s.cat.ConstraintsEnforced) ∧
    (states Session.ddlStep plainSession carefulDdlRun).map
      (fun s => s.cat.pgConstraint.rows.length) = [0, 0, 0, 1, 2, 3, 4] := by
  have hEmpty : plainTable.Sound noTable := by
    refine ⟨?_, ?_, ?_, ?_⟩ <;>
    · intro row hRow
      cases hRow
  refine ⟨?_, by decide +kernel⟩
  apply constraints_enforced plainSession ⟨hEmpty, hEmpty⟩
  refine ⟨trivial, trivial, ?_, ?_, ?_, trivial, trivial⟩
  · show ∀ name ∈ (primaryKeyUsing "u").indexname, _
    decide +kernel
  · intro hCols
    exact absurd rfl hCols
  · intro _
    decide +kernel

/-- A hypothetical unique index as the index of a primary key, and as the index a
foreign key references. -/
theorem constraints_unenforced :
    (¬ ((plainSession.ddlStep
        (calmDdlServer, .createIndex (uniqueIndexOnT "h" true))).ddlStep
        (calmDdlServer, .addKey "t" (primaryKeyUsing "h"))).cat.ConstraintsEnforced) ∧
    ¬ ((plainSession.ddlStep
        (calmDdlServer, .createIndex (uniqueIndexOnT "h" true))).ddlStep
        (calmDdlServer, .addForeignKey (referenceToT [1]))).cat.ConstraintsEnforced := by
  have hPart : ∀ {cat : Catalog}, cat.ConstraintsEnforced →
      ∀ con ∈ cat.pgConstraint.rows, ∀ index ∈ cat.pgIndex.rows,
        index.indexrelid = con.conindid → index.indishypothetical = false :=
    fun h con hCon index hMem hOid => (h con hCon index hMem hOid).1
  constructor
  · intro h
    exact absurd (hPart h) (by decide +kernel)
  · intro h
    exact absurd (hPart h) (by decide +kernel)

end PgTuning.Backend
