import PgTuning.Backend.IndexCommands

/-!
# Sound catalogs

A `PRIMARY KEY`, `UNIQUE` or `FOREIGN KEY` constraint is enforced through its index, so the index
has to be one the executor maintains. `Catalog.Sound` says that every constraint has an index, that
this index is not hypothetical, and that neither is an index marked `indisprimary`, where the lookup
of a primary key starts.

Within a command the catalogs only grow: `Growing base` carries what was found in the catalogs
`base` along. A command ends with sound catalogs or fails and leaves the committed ones sound.
-/

namespace PgTuning.Backend

open PgTuning.Lib Catalog
open PgTuning.Lib.Attempt

namespace Catalog

/-! ## Sound catalogs -/

/-- There is an index with this OID, and it is not hypothetical. -/
def RealIndex (cat : Catalog) (oid : Oid) : Prop :=
  ∃ index ∈ cat.pgIndex.rows, index.indexrelid = oid ∧
    index.indishypothetical = false

/-- Every index has its table and takes rows; primary keys and constraints rest on
real indexes. `unset` are the tables whose `relhasindex` is still to be set. -/
structure Sound (unset : Oid → Prop) (cat : Catalog) : Prop where
  tables : ∀ index ∈ cat.pgIndex.rows, ∃ relation ∈ cat.pgClass.rows,
    relation.oid = index.indrelid ∧ (relation.relhasindex = true ∨ unset relation.oid)
  ready : ∀ index ∈ cat.pgIndex.rows, index.indisready = true
  primary : ∀ index ∈ cat.pgIndex.rows, index.indisprimary = true →
    index.indishypothetical = false
  constraints : ∀ con ∈ cat.pgConstraint.rows, cat.RealIndex con.conindid

def noTable : Oid → Prop := fun _ => False

/-- `new` still has the tables and the real indexes of `old`. -/
structure Extends (old new : Catalog) : Prop where
  table : ∀ relation ∈ old.pgClass.rows, ∃ later ∈ new.pgClass.rows,
    later.oid = relation.oid
  real : ∀ oid, old.RealIndex oid → new.RealIndex oid

theorem Extends.refl (cat : Catalog) : cat.Extends cat :=
  ⟨fun relation h => ⟨relation, h, rfl⟩, fun _ h => h⟩

theorem Extends.trans {first second third : Catalog} (h : first.Extends second)
    (h' : second.Extends third) : first.Extends third := by
  refine ⟨?_, fun oid hReal => h'.real oid (h.real oid hReal)⟩
  intro relation hMem
  obtain ⟨later, hLater, hOid⟩ := h.table relation hMem
  obtain ⟨last, hLast, hOid'⟩ := h'.table later hLater
  exact ⟨last, hLast, hOid'.trans hOid⟩

variable {unset : Oid → Prop} {cat : Catalog} {index : PgIndex} {relation : PgClass}

theorem RealIndex.of_mem (hMem : index ∈ cat.pgIndex.rows)
    (hReal : index.indishypothetical = false) : cat.RealIndex index.indexrelid :=
  ⟨index, hMem, rfl, hReal⟩

theorem RealIndex.real (h : cat.RealIndex index.indexrelid)
    (hMem : index ∈ cat.pgIndex.rows) : index.indishypothetical = false := by
  obtain ⟨row, hRow, hOid, hReal⟩ := h
  rw [← cat.pgIndex.eq_of_key hRow hMem hOid]
  exact hReal

/-! ### Changes to a row of pg_index -/

/-- What no command changes in a row once it is there. -/
structure FlagsKept (f : PgIndex → PgIndex) : Prop where
  indrelid : ∀ row, (f row).indrelid = row.indrelid
  indisready : ∀ row, (f row).indisready = row.indisready
  indishypothetical : ∀ row, (f row).indishypothetical = row.indishypothetical

section UpdateIndex

variable {oid : Oid} {f : PgIndex → PgIndex}
    {hKey : ∀ index, (f index).indexrelid = index.indexrelid}

theorem updateIndex_extends (hf : FlagsKept f) : cat.Extends (cat.updateIndex oid f hKey) := by
  refine ⟨fun relation h => ⟨relation, h, rfl⟩, ?_⟩
  rintro o ⟨row, hRow, hOid, hReal⟩
  refine ⟨_, (mem_updateIndex hKey).mpr ⟨row, hRow, rfl⟩, ?_⟩
  split_ifs
  · exact ⟨(hKey row).trans hOid, (hf.indishypothetical row).trans hReal⟩
  · exact ⟨hOid, hReal⟩

/-- Only `indisprimary` needs care. -/
theorem Sound.updateIndex (h : cat.Sound unset) (hf : FlagsKept f)
    (hPrimary : ∀ row ∈ cat.pgIndex.rows, row.indexrelid = oid →
      (f row).indisprimary → row.indishypothetical = false) :
    (cat.updateIndex oid f hKey).Sound unset := by
  have hRow : ∀ index ∈ (cat.updateIndex oid f hKey).pgIndex.rows,
      ∃ row ∈ cat.pgIndex.rows, index.indrelid = row.indrelid ∧ index.indisready = row.indisready ∧
        (index.indisprimary → index.indishypothetical = false) := by
    intro index hMem
    obtain ⟨row, hRow, hEq⟩ := (mem_updateIndex hKey).mp hMem
    by_cases hOid : row.indexrelid = oid
    · rw [if_pos hOid] at hEq
      refine ⟨row, hRow, ?_⟩
      rw [hEq, hf.indishypothetical]
      exact ⟨hf.indrelid row, hf.indisready row, hPrimary row hRow hOid⟩
    · rw [if_neg hOid] at hEq
      rw [hEq]
      exact ⟨row, hRow, rfl, rfl, h.primary row hRow⟩
  refine ⟨?_, ?_, ?_, ?_⟩
  · intro index hMem
    obtain ⟨row, hRow, hRel, _⟩ := hRow index hMem
    rw [hRel]
    exact h.tables row hRow
  · intro index hMem
    obtain ⟨row, hRow, _, hReady, _⟩ := hRow index hMem
    rw [hReady]
    exact h.ready row hRow
  · intro index hMem
    obtain ⟨row, _, _, _, hPrim⟩ := hRow index hMem
    exact hPrim
  · intro con hCon
    exact (updateIndex_extends hf).real _ (h.constraints con hCon)

end UpdateIndex

/-! ### relhasindex -/

theorem mem_setRelhasindex (h : relation ∈ cat.pgClass.rows) (relid : Oid) (hasindex : Bool) :
    (if relation.oid = relid then { relation with relhasindex := hasindex }
      else relation) ∈ (cat.setRelhasindex relid hasindex).pgClass.rows :=
  (Table.mem_modify (f := fun relation => { relation with relhasindex := hasindex })
    fun _ => rfl).mpr ⟨relation, h, rfl⟩

theorem setRelhasindex_extends (relid : Oid) (hasindex : Bool) :
    cat.Extends (cat.setRelhasindex relid hasindex) := by
  refine ⟨?_, fun _ h => h⟩
  intro relation hMem
  refine ⟨_, mem_setRelhasindex hMem relid hasindex, ?_⟩
  split_ifs <;> rfl

/-- Setting the flag of `relid` takes `relid` off the list. -/
theorem Sound.setRelhasindex {unset' : Oid → Prop} (h : cat.Sound unset) (relid : Oid)
    (hUnset : ∀ oid, unset oid → oid = relid ∨ unset' oid) :
    (cat.setRelhasindex relid true).Sound unset' := by
  refine ⟨?_, h.ready, h.primary, h.constraints⟩
  intro index hMem
  obtain ⟨relation, hRelation, hOid, hFlag⟩ := h.tables index hMem
  refine ⟨_, mem_setRelhasindex hRelation relid true, ?_⟩
  split_ifs with hSet
  · exact ⟨hOid, Or.inl rfl⟩
  · refine ⟨hOid, ?_⟩
    rcases hFlag with hTrue | hUn
    · exact Or.inl hTrue
    · exact Or.inr ((hUnset _ hUn).resolve_left hSet)

/-! ### New rows -/

theorem insertIndex_extends (hFresh : cat.pgIndex.get? index.indexrelid = none) :
    cat.Extends { cat with pgIndex := cat.pgIndex.insert index } := by
  refine ⟨fun relation h => ⟨relation, h, rfl⟩, ?_⟩
  rintro oid ⟨row, hRow, hOid, hReal⟩
  exact ⟨row, (Table.mem_insert hFresh).mpr (Or.inr hRow), hOid, hReal⟩

theorem Sound.insertIndex (h : cat.Sound unset) (hFresh : cat.pgIndex.get? index.indexrelid = none)
    (hTable : ∃ relation ∈ cat.pgClass.rows, relation.oid = index.indrelid)
    (hUnset : unset index.indrelid) (hReady : index.indisready)
    (hPrimary : index.indisprimary → index.indishypothetical = false) :
    Sound unset { cat with pgIndex := cat.pgIndex.insert index } := by
  refine ⟨Table.forall_mem_insert ?_ h.tables, Table.forall_mem_insert hReady h.ready,
    Table.forall_mem_insert hPrimary h.primary, ?_⟩
  · obtain ⟨relation, hRelation, hOid⟩ := hTable
    exact ⟨relation, hRelation, hOid, Or.inr (by rw [hOid]; exact hUnset)⟩
  · intro con hCon
    exact (insertIndex_extends hFresh).real _ (h.constraints con hCon)

theorem Sound.insertConstraint {con : PgConstraint} (h : cat.Sound unset)
    (hReal : cat.RealIndex con.conindid) :
    Sound unset { cat with pgConstraint := cat.pgConstraint.insert con } :=
  { h with constraints := Table.forall_mem_insert hReal h.constraints }

theorem Sound.insertClass (h : cat.Sound unset) (hFresh : cat.pgClass.get? relation.oid = none) :
    Sound unset { cat with pgClass := cat.pgClass.insert relation } := by
  refine ⟨?_, h.ready, h.primary, h.constraints⟩
  intro index hMem
  obtain ⟨owner, hOwner, hRest⟩ := h.tables index hMem
  exact ⟨owner, (Table.mem_insert hFresh).mpr (Or.inr hOwner), hRest⟩

end Catalog

/-! ## The parts of a command -/

structure Steady (s : Session) : Prop where
  cat : s.cat.Sound Catalog.noTable
  committed : s.committed.Sound Catalog.noTable

/-- What is left when a command fails. -/
def Recoverable (s : Session) : Prop := s.committed.Sound Catalog.noTable

/-- Within a command: the catalogs are sound and have grown from `base`. -/
structure Growing (unset : Oid → Prop) (base : Catalog) (s : Session) : Prop where
  sound : s.cat.Sound unset
  grown : base.Extends s.cat
  committed : s.committed.Sound Catalog.noTable

theorem Steady.growing {s : Session} (h : Steady s) : Growing noTable s.cat s :=
  ⟨h.cat, Catalog.Extends.refl s.cat, h.committed⟩

theorem Growing.steady {base : Catalog} {s : Session}
    (h : Growing noTable base s) : Steady s :=
  ⟨h.sound, h.committed⟩

variable {start : Session}

/-- Where nothing has happened yet, failing does no harm. -/
theorem recoverable_of_eq (hStart : Steady start) (s : Session)
    (hs : s = start) : Recoverable s := by
  rw [hs]
  exact hStart.committed

theorem steady_of_growing {α : Type} {m : Exec α}
    (hStart : Steady start) (h : Keeps (Growing noTable start.cat) m) :
    Ends (fun s => s = start) m (fun _ => Steady) Recoverable := by
  apply Triple.fromState _ hStart.growing
  exact Ends.weaken h (fun _ hs => hs) (fun _ _ hs => hs.steady) fun _ hs => hs.committed

section Parts

variable {unset : Oid → Prop} {base : Catalog} (server : Server)

theorem storageCall_growing (kind : CallKind) (index : PgIndex) :
    Keeps (Growing unset base) (storageCall server kind index) :=
  storageCall_ends server fun _ hs => { hs with }

theorem updateIndex_growing (oid : Oid) {f : PgIndex → PgIndex}
    {hKey : ∀ index, (f index).indexrelid = index.indexrelid} (hf : Catalog.FlagsKept f)
    (hPrimary : ∀ row, (f row).indisprimary → row.indisprimary ∨ base.RealIndex oid) :
    Keeps (Growing unset base) (updateIndex oid f hKey) := by
  apply keeps_modify
  intro s hs
  have hStamp : Catalog.FlagsKept fun row => (f row).stamp s.xid :=
    { hf with }
  refine ⟨hs.sound.updateIndex hStamp ?_,
    hs.grown.trans (updateIndex_extends hStamp), hs.committed⟩
  intro row hRow hOid hSet
  rcases hPrimary row hSet with hBefore | hReal
  · exact hs.sound.primary row hRow hBefore
  · rw [← hOid] at hReal
    exact (hs.grown.real _ hReal).real hRow

theorem updateRelhasindex_growing (relid : Oid) :
    Keeps (Growing unset base) (updateRelhasindex relid true) := by
  apply keeps_modify
  intro s hs
  exact ⟨hs.sound.setRelhasindex relid fun _ h => Or.inr h,
    hs.grown.trans (setRelhasindex_extends relid true),
    hs.committed.setRelhasindex relid fun _ h => Or.inr h⟩

theorem updateRelhasindex_sets (relid : Oid) :
    Ends (Growing (fun oid => oid = relid) base) (updateRelhasindex relid true)
      (fun _ => Growing noTable base) Recoverable := by
  apply ends_modify
  intro s hs
  exact ⟨hs.sound.setRelhasindex relid fun _ h => Or.inl h,
    hs.grown.trans (setRelhasindex_extends relid true),
    hs.committed.setRelhasindex relid fun _ h => Or.inr h⟩

theorem createConstraintEntry_growing {entry : Oid → PgConstraint}
    (hReal : ∀ oid, base.RealIndex (entry oid).conindid) :
    Keeps (Growing unset base) (createConstraintEntry server entry) := by
  apply keeps_modify
  intro s hs
  exact ⟨hs.sound.insertConstraint (hs.grown.real _ (hReal _)),
    ⟨hs.grown.table, hs.grown.real⟩, hs.committed⟩

theorem indexConstraintCreate_growing (heapRelation : PgClass) {index : PgIndex}
    (constraintName : String) (constraintType : ConstraintType)
    (deferrable initdeferred markAsPrimary updatePgindex : Bool)
    (hReal : base.RealIndex index.indexrelid) :
    Keeps (Growing unset base) (indexConstraintCreate server heapRelation index
      constraintName constraintType deferrable initdeferred markAsPrimary
      updatePgindex) := by
  apply keeps_throwIf.seq
  apply keeps_throwIf.seq
  apply (createConstraintEntry_growing server fun _ => hReal).seq
  apply (keeps_runIf fun _ => updateRelhasindex_growing _).seq
  apply keeps_runIf
  intro _
  apply updateIndex_growing
  · exact ⟨fun _ => rfl, fun _ => rfl, fun _ => rfl⟩
  · exact fun _ _ => Or.inr hReal

theorem registerConstraint_growing (heapRelation : PgClass) {index : PgIndex}
    (d : IndexDef) (hReal : base.RealIndex index.indexrelid) :
    Keeps (Growing unset base) (registerConstraint server heapRelation index d) := by
  unfold registerConstraint
  cases d.constraintType with
  | none => exact keeps_throw _
  | some constraintType =>
    exact indexConstraintCreate_growing server _ _ _ _ _ _ _ hReal

theorem buildOrRegister_sets (index : PgIndex) (skipBuild : Bool) :
    Ends (Growing (fun oid => oid = index.indrelid) base)
      (buildOrRegister server index skipBuild)
      (fun _ => Growing noTable base) Recoverable := by
  have hError : ∀ s, Growing (fun oid => oid = index.indrelid) base s →
      Recoverable s := fun _ hs => hs.committed
  unfold buildOrRegister
  split_ifs
  · exact updateRelhasindex_sets index.indrelid
  · apply Triple.bind (R := fun _ => Growing noTable base)
    · apply Triple.seq ((storageCall_growing server .indexBuild index).ends hError)
      apply Triple.bind (keeps_get.ends hError)
      intro s
      apply Triple.bind
      · apply Keeps.ends _ hError
        apply keeps_runIf
        intro _
        apply updateIndex_growing
        · exact ⟨fun _ => rfl, fun _ => rfl, fun _ => rfl⟩
        · exact fun _ hPrimary => Or.inl hPrimary
      intro _
      apply (updateRelhasindex_sets index.indrelid).seq
      exact ends_pure fun _ hs => hs
    · intro _
      exact ends_pure fun _ hs => hs

end Parts

/-! ## DefineIndex -/

/-- A definition that makes a key or a constraint makes a real index. -/
structure IndexDef.Grounded (d : IndexDef) : Prop where
  isconstraint : d.isconstraint = true → d.hypothetical = false
  primary : d.primary = true → d.hypothetical = false
  concurrent : d.concurrent = false

variable {base : Catalog} (server : Server) {d : IndexDef}

theorem updateIndexRelation_growing (hd : d.Grounded) {heapoid : Oid}
    (relname : String) (hTable : ∃ relation ∈ base.pgClass.rows, relation.oid = heapoid) :
    Ends (Growing noTable base)
      (updateIndexRelation server heapoid relname d)
      (fun index s => Growing (fun oid => oid = heapoid) base s ∧
        index ∈ s.cat.pgIndex.rows ∧ index.indrelid = heapoid ∧
        index.indishypothetical = d.hypothetical) Recoverable := by
  intro s hs
  have hFresh : s.cat.pgIndex.get? (server.newOid s.cat) = none := (server.newOid_unused s.cat).2.1
  have hSound : s.cat.Sound fun oid => oid = heapoid := by
    refine ⟨?_, hs.sound.ready, hs.sound.primary, hs.sound.constraints⟩
    intro index hMem
    obtain ⟨relation, hRelation, hOid, hFlag⟩ := hs.sound.tables index hMem
    exact ⟨relation, hRelation, hOid, hFlag.imp_right False.elim⟩
  have hOwner : ∃ relation ∈ s.cat.pgClass.rows, relation.oid = heapoid := by
    obtain ⟨relation, hRelation, hOid⟩ := hTable
    obtain ⟨later, hLater, hSame⟩ := hs.grown.table relation hRelation
    exact ⟨later, hLater, hSame.trans hOid⟩
  have hReady : (!d.concurrent) := by rw [hd.concurrent]; rfl
  refine ⟨⟨?_, ?_, hs.committed⟩, ?_, rfl, rfl⟩
  · exact hSound.insertIndex hFresh hOwner rfl hReady hd.primary
  · exact hs.grown.trans (insertIndex_extends hFresh)
  · exact (Table.mem_insert hFresh).mpr (Or.inl rfl)

theorem indexCreate_growing (heapRelation : PgClass) (indexRelationName : String)
    (hd : d.Grounded) (skipBuild : Bool) (hTable : heapRelation ∈ base.pgClass.rows) :
    Ends (Growing noTable base)
      (indexCreate server heapRelation indexRelationName d skipBuild)
      (fun _ => Growing noTable base) Recoverable := by
  have hError : ∀ s, Growing noTable base s → Recoverable s := fun _ hs => hs.committed
  apply Triple.seq (keeps_throwIf.ends hError)
  apply Triple.seq (keeps_throwIf.ends hError)
  apply Triple.bind (keeps_get.ends hError)
  intro s
  apply Triple.seq (keeps_throwIf.ends hError)
  apply (updateIndexRelation_growing server hd indexRelationName ⟨heapRelation, hTable, rfl⟩).bind
  rintro index t ⟨hGrow, hMem, hRel, hFlag⟩
  -- From here on the new index counts as found.
  have hTail : Ends (Growing (fun oid => oid = index.indrelid) t.cat)
      (runIf d.isconstraint (registerConstraint server heapRelation index d) >>=
        fun _ => buildOrRegister server index skipBuild >>= fun _ =>
          pure index.indexrelid)
      (fun _ => Growing noTable t.cat) Recoverable := by
    apply Triple.bind
    · apply Keeps.ends _ fun _ hs => hs.committed
      apply keeps_runIf
      intro hCon
      apply registerConstraint_growing
      exact Catalog.RealIndex.of_mem hMem (hFlag.trans (hd.isconstraint hCon))
    · intro _
      apply (buildOrRegister_sets server index skipBuild).seq
      exact ends_pure fun _ hs => hs
  have hStart : Growing (fun oid => oid = index.indrelid) t.cat t := by
    rw [hRel]
    exact ⟨hGrow.sound, Catalog.Extends.refl t.cat, hGrow.committed⟩
  refine Ends.weaken hTail (fun _ h => h) ?_ (fun _ h => h) t hStart
  intro _ u hu
  exact ⟨hu.sound, hGrow.grown.trans hu.grown, hu.committed⟩

theorem defineIndex_steady (hd : d.Grounded)
    (isAlterTable skipBuild : Bool) (hStart : Steady start) :
    Ends (fun s => s = start) (defineIndex server d isAlterTable skipBuild)
      (fun _ => Steady) Recoverable := by
  have hEq := recoverable_of_eq hStart
  apply Triple.seq (keeps_throwIf.ends hEq)
  apply Triple.seq (keeps_throwIf.ends hEq)
  apply ((heapOpenrv_ends d.relation start).orElse hEq).bind
  intro rel
  apply ends_of_and
  intro hRel
  have hTable : rel ∈ start.cat.pgClass.rows := List.mem_of_find?_eq_some hRel
  apply Triple.seq ((keeps_throwSome _).ends hEq)
  apply Triple.bind (keeps_get.ends hEq)
  intro s
  apply Triple.seq ((keeps_checkAccessMethod d).ends hEq)
  apply Triple.seq ((keeps_runIf fun _ => keeps_indexCheckPrimaryKey _ _ _).ends hEq)
  apply Triple.seq (keeps_throwIf.ends hEq)
  rw [hd.concurrent]
  have hCreate := indexCreate_growing server rel
    (d.idxname.getD (server.chooseIndexName s.cat d)) hd (skipBuild || false) hTable
  apply (hCreate.fromState hStart.growing).seq
  exact ends_pure fun _ hs => hs.steady

end PgTuning.Backend
