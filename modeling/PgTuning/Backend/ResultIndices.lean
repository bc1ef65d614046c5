import PgTuning.Lib.Traced
import PgTuning.Backend.Maintenance
import PgTuning.Backend.Planning

/-!
# The indexes of a result relation

`ExecOpenIndices` opens every index of the relation, closes the hypothetical ones again and stores
the others from the front of two arrays that have room for all; the count is set again at the end.
`ExecInsertIndexTuples` and `ExecCloseIndices` work through the arrays up to the count.

An entry past the count is `garbage`, and to follow one leaves a `wildRead` in the log of calls.
`Describes` is the state between the three functions, and `rows_indexed` puts them together: the
whole log of a statement that stores rows.
-/

namespace PgTuning.Backend.ResultIndices

open PgTuning.Lib PgTuning.Lib.Attempt List Bool Traces

/-- What an entry of an allocated array holds. -/
inductive Slot (α : Type) where
  | garbage
  | null
  | ptr (a : α)
deriving DecidableEq, Repr

def slotAt {α : Type} (slots : List (Slot α)) (i : Nat) : Slot α := slots.getD i .garbage

/-- An expression prepared for execution. -/
structure ExprState where
  expr : String
deriving DecidableEq, Repr

/-- The fields of `IndexInfo` that are read here. -/
structure IndexInfo where
  iiKeyAttrNumbers : List Int
  iiExpressions : List String
  iiPredicate : List String
  iiPredicateState : List ExprState
  iiExclusionOps : Bool
  iiReadyForInserts : Bool
  iiHypothetical : Bool
deriving DecidableEq, Repr

inductive IndexUniqueCheck where
  | no
  | yes
  | partially
deriving DecidableEq, Repr

structure ItemPointer where
  block : Nat
  offset : Nat
deriving DecidableEq, Repr

/-- The calls that leave the executor. -/
inductive Call where
  | indexOpen (index : Oid)
  | indexClose (index : Oid)
  | indexInsert (index : Oid) (tupleid : ItemPointer) (checkUnique : IndexUniqueCheck)
  /-- An entry was followed that nothing had been stored in. -/
  | wildRead
deriving DecidableEq, Repr

structure ResultRelInfo where
  riNumIndices : Nat
  riIndexRelationDescs : List (Slot PgIndex)
  riIndexRelationInfo : List (Slot IndexInfo)
deriving DecidableEq, Repr

structure ExecState where
  rri : ResultRelInfo
  log : List Call
deriving DecidableEq, Repr

/-- The rest of the server. Its answers may depend on the calls so far; `ρ` are the rows. -/
structure Server (ρ : Type) where
  /-- Why `index_open` fails. -/
  openFails : List Call → Oid → Option Error
  /-- The value of a clause for a row. -/
  execEvalExpr : String → ρ → Except Error (Option Bool)
  formIndexDatum : List Int → List String → ρ → Except Error (List (Option String))
  indexInsert : List Call → Oid → List (Option String) → ItemPointer → IndexUniqueCheck →
    Except Error Bool
  checkExclusionConstraint : List Call → Oid → List (Option String) → ItemPointer → Bool →
    Except Error Bool

abbrev ExecM := Attempt Error ExecState

section Model

variable {ρ : Type} (server : Server ρ)

def record (call : Call) : ExecM Unit :=
  modify fun s => { s with log := s.log ++ [call] }

/-- An answer of the server. -/
def ofServer {α : Type} : Except Error α → ExecM α
  | .ok a => pure a
  | .error e => throw e

def indexOpen (index : PgIndex) : ExecM Unit := do
  let s ← get
  match server.openFails s.log index.indexrelid with
  | some e => throw e
  | none => record (.indexOpen index.indexrelid)

def indexClose (index : PgIndex) : ExecM Unit := record (.indexClose index.indexrelid)

def indexMaxKeys : Nat := 32

/-- `BuildIndexInfo`, for a number of keys it accepts. -/
def indexInfoOf (index : PgIndex) : IndexInfo where
  iiKeyAttrNumbers := index.columns.map IndexColumn.attnum
  iiExpressions := index.indexprs
  iiPredicate := index.indpred
  iiPredicateState := []
  iiExclusionOps := index.indisexclusion
  iiReadyForInserts := index.indisready
  iiHypothetical := index.indishypothetical

def buildIndexInfo (index : PgIndex) : ExecM IndexInfo := do
  let numKeys := index.columns.length
  throwIf (numKeys < 1 || numKeys > indexMaxKeys) ⟨.internalError,
    "invalid indnatts " ++ toString numKeys ++ " for index " ++ toString index.indexrelid⟩
  return indexInfoOf index

/-- The loop body of `ExecOpenIndices`; `i` is the next free entry. -/
def openIndex (hypothetical : Bool) (i : Nat) (index : PgIndex) : ExecM Nat := do
  indexOpen server index
  let ii ← buildIndexInfo index
  if hypothetical || !ii.iiHypothetical then do
    modify fun s => { s with
      rri.riIndexRelationDescs := s.rri.riIndexRelationDescs.set i (.ptr index)
      rri.riIndexRelationInfo := s.rri.riIndexRelationInfo.set i (.ptr ii) }
    return i + 1
  else do
    indexClose index
    return i

def execOpenIndices (cat : Catalog) (relation : PgClass) (hypothetical : Bool) :
    ExecM Unit := do
  modify fun s => { s with rri.riNumIndices := 0 }
  let indexoidlist := cat.relationGetIndexList relation.oid
  let len := indexoidlist.length
  -- The two fast paths leave the arrays alone.
  if !relation.relhasindex || len == 0 then pure ()
  else do
    modify fun s => { s with rri :=
      { riNumIndices := len
        riIndexRelationDescs := replicate len .garbage
        riIndexRelationInfo := replicate len .garbage } }
    let i ← indexoidlist.foldlM (openIndex server hypothetical) 0
    modify fun s => { s with rri.riNumIndices := i }

def execCloseIndices : ExecM Unit := do
  let s ← get
  forM (range s.rri.riNumIndices) fun i =>
    match slotAt s.rri.riIndexRelationDescs i with
    | .null => pure ()
    | .ptr index => indexClose index
    | .garbage => record .wildRead

def execPrepareExpr (predicate : List String) : List ExprState := predicate.map ExprState.mk

/-- `ExecQual` without `resultForNull`. -/
def execQual (row : ρ) : List ExprState → Except Error Bool
  | [] => .ok true
  | clause :: rest =>
    match server.execEvalExpr clause.expr row with
    | .error e => .error e
    | .ok (some true) => execQual row rest
    | .ok (some false) => .ok false
    | .ok none => .ok false

/-- The test of a partial index, with the state of its predicate made at its first use. -/
def checkPredicate (row : ρ) (i : Nat) (indexInfo : IndexInfo) : ExecM Bool :=
  if indexInfo.iiPredicate = [] then pure true
  else do
    let predicate := if indexInfo.iiPredicateState = [] then
      execPrepareExpr indexInfo.iiPredicate else indexInfo.iiPredicateState
    let prepared := { indexInfo with iiPredicateState := predicate }
    modify fun s => { s with
      rri.riIndexRelationInfo := s.rri.riIndexRelationInfo.set i (.ptr prepared) }
    ofServer (execQual server row predicate)

/-- The uniqueness check asked for. -/
def checkUniqueOf (index : PgIndex) : IndexUniqueCheck :=
  if !index.indisunique then .no
  else if index.indimmediate then .yes
  else .partially

/-- The check of an exclusion constraint, whose answer replaces that of the insertion. -/
def checkExclusion (index : PgIndex) (indexInfo : IndexInfo) (values : List (Option String))
    (tupleid : ItemPointer) (satisfiesConstraint : Bool) : ExecM Bool := do
  let s ← get
  if indexInfo.iiExclusionOps then
    let errorOK := !index.indimmediate
    ofServer (server.checkExclusionConstraint s.log index.indexrelid values tupleid errorOK)
  else pure satisfiesConstraint

/-- The entry itself, and the rechecks it asks for. -/
def insertEntry (row : ρ) (tupleid : ItemPointer) (index : PgIndex) (indexInfo : IndexInfo)
    (result : List Oid) : ExecM (List Oid) := do
  let values ← ofServer
    (server.formIndexDatum indexInfo.iiKeyAttrNumbers indexInfo.iiExpressions row)
  let checkUnique := checkUniqueOf index
  record (.indexInsert index.indexrelid tupleid checkUnique)
  let s ← get
  let satisfiesConstraint ← ofServer
    (server.indexInsert s.log index.indexrelid values tupleid checkUnique)
  let satisfiesConstraint ←
    checkExclusion server index indexInfo values tupleid satisfiesConstraint
  if (checkUnique == .partially || indexInfo.iiExclusionOps) && !satisfiesConstraint then
    pure (result ++ [index.indexrelid])
  else pure result

/-- The loop body of `ExecInsertIndexTuples`. -/
def insertIndexTuple (row : ρ) (tupleid : ItemPointer) (result : List Oid) (i : Nat) :
    ExecM (List Oid) := do
  let s ← get
  match slotAt s.rri.riIndexRelationDescs i, slotAt s.rri.riIndexRelationInfo i with
  | .null, _ => pure result
  | .ptr index, .ptr indexInfo =>
    if !indexInfo.iiReadyForInserts then pure result
    else do
      let holds ← checkPredicate server row i indexInfo
      if holds then insertEntry server row tupleid index indexInfo result
      else pure result
  | _, _ => do
      record .wildRead
      pure result

def execInsertIndexTuples (row : ρ) (tupleid : ItemPointer) : ExecM (List Oid) := do
  let s ← get
  (range s.rri.riNumIndices).foldlM (insertIndexTuple server row tupleid) []

/-- A statement that stores rows. -/
def storeRows (cat : Catalog) (relation : PgClass) (rows : List (ρ × ItemPointer)) :
    ExecM Unit := do
  execOpenIndices server cat relation false
  forM rows fun row => do
    let _ ← execInsertIndexTuples server row.1 row.2
  execCloseIndices

end Model

/-! ## What the calls should be -/

/-- The index stays open. -/
def staysOpen (hypothetical : Bool) (index : PgIndex) : Bool :=
  hypothetical || !index.indishypothetical

/-- The calls for an index that is opened. -/
def openCalls (hypothetical : Bool) (index : PgIndex) : List Call :=
  if staysOpen hypothetical index then [.indexOpen index.indexrelid]
  else [.indexOpen index.indexrelid, .indexClose index.indexrelid]

/-- The row belongs into the index. -/
def needsEntry {ρ : Type} (server : Server ρ) (row : ρ) (index : PgIndex) : Bool :=
  index.indisready && (index.indpred.isEmpty ||
    match execQual server row (execPrepareExpr index.indpred) with
    | .ok holds => holds
    | .error _ => false)

def entryCall (tupleid : ItemPointer) (index : PgIndex) : Call :=
  .indexInsert index.indexrelid tupleid (checkUniqueOf index)

def closeCall (index : PgIndex) : Call := .indexClose index.indexrelid

/-! ## Opening -/

/-- The first entries of the arrays are these indexes, the others are not set. -/
structure Filled (len : Nat) (indices : List PgIndex) (rri : ResultRelInfo) : Prop where
  descs : rri.riIndexRelationDescs =
    indices.map Slot.ptr ++ replicate (len - indices.length) .garbage
  infos : rri.riIndexRelationInfo =
    indices.map (fun index => Slot.ptr (indexInfoOf index)) ++
      replicate (len - indices.length) .garbage

theorem set_next {α β : Type} (f : β → Slot α) (xs : List β) (x : β) {len : Nat}
    (h : xs.length < len) :
    (xs.map f ++ replicate (len - xs.length) Slot.garbage).set xs.length (f x) =
      (xs ++ [x]).map f ++ replicate (len - (xs ++ [x]).length) Slot.garbage := by
  obtain ⟨m, hm⟩ := Nat.exists_eq_add_of_lt h
  have hRest : len - xs.length = m + 1 := by omega
  have hRest' : len - (xs ++ [x]).length = m := by simp; omega
  rw [hRest, hRest', replicate_succ]
  simp

section Open

variable {ρ : Type} {server : Server ρ} {hypothetical : Bool} {P : ExecState → Prop}

theorem indexOpen_traces (hP : ∀ rri log log', P ⟨rri, log⟩ → P ⟨rri, log'⟩) (index : PgIndex) :
    Traces ExecState.log P (indexOpen server index) (fun _ => P) [.indexOpen index.indexrelid] := by
  apply traces_get_bind
  intro s hs
  cases server.openFails s.log index.indexrelid with
  | some e => exact traces_throw
  | none =>
    apply traces_modify
    rintro t rfl
    exact ⟨hP _ _ _ hs, rfl⟩

theorem buildIndexInfo_traces (index : PgIndex) :
    Traces ExecState.log P (buildIndexInfo index) (fun ii s => ii = indexInfoOf index ∧ P s)
      [] := by
  apply Ends.traces
  intro log
  apply (ends_throwIf fun _ hs => hs.2).seq
  exact ends_pure fun s hs => ⟨⟨rfl, hs.1.1⟩, hs.1.2⟩

/-- One pass: the index is stored behind the ones before, or closed again. -/
theorem openIndex_traces (server : Server ρ) (hypothetical : Bool) {len : Nat}
    {kept : List PgIndex} (hRoom : kept.length < len) (index : PgIndex) :
    Traces ExecState.log (fun s => Filled len kept s.rri)
      (openIndex server hypothetical kept.length index)
      (fun i s =>
        let kept' := kept ++ [index].filter (staysOpen hypothetical)
        i = kept'.length ∧ Filled len kept' s.rri)
      (openCalls hypothetical index) := by
  have hCalls : openCalls hypothetical index = [.indexOpen index.indexrelid] ++
      if staysOpen hypothetical index then [] else [.indexClose index.indexrelid] := by
    unfold openCalls
    split_ifs <;> rfl
  rw [hCalls]
  apply (indexOpen_traces (fun _ _ _ h => h) index).bind
  intro _
  apply (buildIndexInfo_traces index).bind_value
  cases hKeep : staysOpen hypothetical index with
  | true =>
    have hFilter : [index].filter (staysOpen hypothetical) = [index] := by simp [hKeep]
    have hTest : hypothetical || !(indexInfoOf index).iiHypothetical := hKeep
    rw [if_pos hTest, hFilter]
    apply bind_silent (R := fun _ s => Filled len (kept ++ [index]) s.rri)
    · apply traces_modify_silent
      intro s hs
      refine ⟨⟨?_, ?_⟩, rfl⟩
      · show s.rri.riIndexRelationDescs.set kept.length (.ptr index) = _
        rw [hs.descs]
        exact set_next Slot.ptr kept index hRoom
      · show s.rri.riIndexRelationInfo.set kept.length (.ptr (indexInfoOf index)) = _
        rw [hs.infos]
        exact set_next (fun ix => Slot.ptr (indexInfoOf ix)) kept index hRoom
    · intro _
      exact traces_pure fun s hs => ⟨by simp, hs⟩
  | false =>
    have hFilter : [index].filter (staysOpen hypothetical) = [] := by simp [hKeep]
    have hTest : ¬ (hypothetical || !(indexInfoOf index).iiHypothetical) := by
      rw [not_eq_true]
      exact hKeep
    rw [if_neg hTest, hFilter, append_nil]
    apply bind_silent (R := fun _ s => Filled len kept s.rri)
    · exact traces_modify fun s hs => ⟨hs, rfl⟩
    · intro _
      exact traces_pure fun s hs => ⟨rfl, hs⟩

/-- What `ExecOpenIndices` leaves: the count and, up to it, the two arrays. -/
structure Opened (indices : List PgIndex) (rri : ResultRelInfo) : Prop where
  count : rri.riNumIndices = indices.length
  descs : rri.riIndexRelationDescs.take rri.riNumIndices = indices.map Slot.ptr
  infos : rri.riIndexRelationInfo.take rri.riNumIndices =
    indices.map fun index => Slot.ptr (indexInfoOf index)

/-- The loop: before each pass the arrays hold what stays open of the list so far. -/
theorem openLoop_traces (indexes : List PgIndex) :
    Traces ExecState.log (fun s => Filled indexes.length [] s.rri)
      (indexes.foldlM (openIndex server hypothetical) 0)
      (fun i s => i = (indexes.filter (staysOpen hypothetical)).length ∧
        Filled indexes.length (indexes.filter (staysOpen hypothetical)) s.rri)
      (indexes.flatMap (openCalls hypothetical)) := by
  refine (traces_foldlM
    (I := fun done i (s : ExecState) => i = (done.filter (staysOpen hypothetical)).length ∧
      Filled indexes.length (done.filter (staysOpen hypothetical)) s.rri)
    indexes 0 ?_).weaken (fun s hs => ⟨rfl, hs⟩) fun _ _ hs => hs
  · rintro pre index post i hSplit log s ⟨⟨rfl, hFilled⟩, hLog⟩
    have hRoom : (pre.filter (staysOpen hypothetical)).length < indexes.length := by
      have hLe := length_filter_le (staysOpen hypothetical) pre
      rw [hSplit]
      simp
      omega
    rw [filter_append]
    exact openIndex_traces server hypothetical hRoom index log s ⟨hFilled, hLog⟩

theorem execOpenIndices_traces {cat : Catalog} {relation : PgClass}
    (hHas : relation.relhasindex = false → cat.relationGetIndexList relation.oid = []) :
    Traces ExecState.log (fun _ => True) (execOpenIndices server cat relation hypothetical)
      (fun _ s =>
        Opened ((cat.relationGetIndexList relation.oid).filter (staysOpen hypothetical)) s.rri)
      ((cat.relationGetIndexList relation.oid).flatMap (openCalls hypothetical)) := by
  apply silent_bind (R := fun _ s => s.rri.riNumIndices = 0)
  · exact traces_modify_silent fun s _ => ⟨rfl, rfl⟩
  intro _
  by_cases hNone : !relation.relhasindex || (cat.relationGetIndexList relation.oid).length == 0
  · have hNil : cat.relationGetIndexList relation.oid = [] := by
      rw [or_eq_true, not_eq_true', beq_iff_eq, length_eq_zero_iff] at hNone
      exact hNone.elim hHas id
    rw [if_pos hNone, hNil]
    apply traces_pure
    intro s hCount
    exact ⟨hCount, by rw [hCount]; rfl, by rw [hCount]; rfl⟩
  · rw [if_neg hNone]
    apply silent_bind (R := fun _ s =>
      Filled (cat.relationGetIndexList relation.oid).length [] s.rri)
    · exact traces_modify_silent fun s _ => ⟨⟨rfl, rfl⟩, rfl⟩
    intro _
    apply (openLoop_traces _).bind_silent
    intro i
    apply traces_modify_silent
    rintro s ⟨rfl, hFilled⟩
    refine ⟨⟨rfl, ?_, ?_⟩, rfl⟩
    · show s.rri.riIndexRelationDescs.take _ = _
      rw [hFilled.descs]
      exact take_left' (length_map _)
    · show s.rri.riIndexRelationInfo.take _ = _
      rw [hFilled.infos]
      exact take_left' (length_map _)

end Open

/-! ## Inserting and closing -/

/-- The state between the calls: as `Opened`, with some of the predicates prepared. -/
structure Describes (indices : List PgIndex) (rri : ResultRelInfo) : Prop where
  count : rri.riNumIndices = indices.length
  desc : ∀ i index, indices[i]? = some index →
    slotAt rri.riIndexRelationDescs i = .ptr index
  info : ∀ i index, indices[i]? = some index →
    slotAt rri.riIndexRelationInfo i = .ptr (indexInfoOf index) ∨
      slotAt rri.riIndexRelationInfo i = .ptr { indexInfoOf index with
        iiPredicateState := execPrepareExpr index.indpred }

theorem slotAt_of_take {α : Type} {slots : List (Slot α)} {n i : Nat} {x : Slot α}
    {xs : List (Slot α)} (hTake : slots.take n = xs) (hAt : xs[i]? = some x) :
    slotAt slots i = x := by
  rw [← hTake, getElem?_take] at hAt
  split_ifs at hAt
  rw [slotAt, getD_eq_getElem?_getD, hAt]
  rfl

theorem Opened.describes {indices : List PgIndex} {rri : ResultRelInfo}
    (h : Opened indices rri) : Describes indices rri where
  count := h.count
  desc := by
    intro i index hAt
    apply slotAt_of_take h.descs
    rw [getElem?_map, hAt]
    rfl
  info := by
    intro i index hAt
    left
    apply slotAt_of_take h.infos
    rw [getElem?_map, hAt]
    rfl

section Insert

variable {ρ : Type} (server : Server ρ) {indices : List PgIndex}

def insertCalls (row : ρ) (tupleid : ItemPointer) (index : PgIndex) : List Call :=
  if needsEntry server row index then [entryCall tupleid index] else []

variable (row : ρ) (tupleid : ItemPointer) {index : PgIndex} {i : Nat}

theorem flatMap_insertCalls (indices : List PgIndex) :
    indices.flatMap (insertCalls server row tupleid) =
      (indices.filter (needsEntry server row)).map (entryCall tupleid) := by
  induction indices with
  | nil => rfl
  | cons index rest ih =>
    rw [flatMap_cons, ih, filter_cons, insertCalls]
    split_ifs <;> rfl

theorem Describes.prepare {rri : ResultRelInfo} (h : Describes indices rri)
    (hAt : indices[i]? = some index) :
    Describes indices { rri with
      riIndexRelationInfo := rri.riIndexRelationInfo.set i (.ptr { indexInfoOf index with
        iiPredicateState := execPrepareExpr index.indpred }) } where
  count := h.count
  desc := h.desc
  info := by
    intro j other hOther
    by_cases hSame : i = j
    · subst hSame
      rw [hAt] at hOther
      cases hOther
      right
      -- The entry is there: an entry past the end would read as garbage.
      have hLt : i < rri.riIndexRelationInfo.length := by
        by_contra hNot
        have hGarbage : slotAt rri.riIndexRelationInfo i = .garbage := by
          rw [slotAt, getD_eq_getElem?_getD, getElem?_eq_none (Nat.not_lt.mp hNot)]
          rfl
        rcases h.info i index hAt with hSlot | hSlot
        · rw [hGarbage] at hSlot
          cases hSlot
        · rw [hGarbage] at hSlot
          cases hSlot
      rw [slotAt, getD_eq_getElem?_getD, getElem?_set_self hLt]
      rfl
    · rw [slotAt, getD_eq_getElem?_getD, getElem?_set_ne hSame]
      exact h.info j other hOther

theorem ofServer_traces {α : Type} {P : ExecState → Prop} (answer : Except Error α) :
    Traces ExecState.log P (ofServer answer) (fun a s => answer = .ok a ∧ P s) [] := by
  cases answer with
  | ok a => exact traces_pure fun s hs => ⟨rfl, hs⟩
  | error e => exact traces_throw

theorem checkPredicate_traces (hAt : indices[i]? = some index)
    {indexInfo : IndexInfo} (hInfo : indexInfo = indexInfoOf index ∨ indexInfo =
      { indexInfoOf index with iiPredicateState := execPrepareExpr index.indpred }) :
    Traces ExecState.log (fun s => Describes indices s.rri)
      (checkPredicate server row i indexInfo)
      (fun holds s => (index.indisready → holds = needsEntry server row index) ∧
        Describes indices s.rri) [] := by
  have hPredicate : indexInfo.iiPredicate = index.indpred := by
    rcases hInfo with rfl | rfl <;> rfl
  have hPrepared : (if indexInfo.iiPredicateState = [] then
      execPrepareExpr indexInfo.iiPredicate else indexInfo.iiPredicateState) =
        execPrepareExpr index.indpred := by
    rcases hInfo with rfl | rfl
    · rfl
    · exact ite_self _
  have hStored : ({ indexInfo with iiPredicateState := execPrepareExpr index.indpred } :
      IndexInfo) = { indexInfoOf index with iiPredicateState := execPrepareExpr index.indpred } := by
    rcases hInfo with rfl | rfl <;> rfl
  unfold checkPredicate
  by_cases hNil : indexInfo.iiPredicate = []
  · rw [if_pos hNil]
    apply traces_pure
    intro s hs
    refine ⟨fun hReady => ?_, hs⟩
    rw [hPredicate] at hNil
    simp [needsEntry, hReady, hNil]
  · rw [if_neg hNil, hPrepared]
    apply silent_bind (R := fun _ s => Describes indices s.rri)
    · apply traces_modify_silent
      intro s hs
      rw [hStored]
      exact ⟨hs.prepare hAt, rfl⟩
    · intro _
      apply (ofServer_traces _).weaken fun _ h => h
      rintro holds s ⟨hAnswer, hs⟩
      refine ⟨fun hReady => ?_, hs⟩
      rw [hPredicate] at hNil
      simp [needsEntry, hReady, hAnswer, hNil]

theorem checkExclusion_traces {P : ExecState → Prop} (index : PgIndex) (indexInfo : IndexInfo)
    (values : List (Option String)) (tupleid : ItemPointer) (satisfies : Bool) :
    Traces ExecState.log P (checkExclusion server index indexInfo values tupleid satisfies)
      (fun _ => P) [] := by
  apply traces_get_bind
  intro s hs
  apply fromState _ hs
  split_ifs with hOps
  · exact (ofServer_traces _).weaken (fun _ h => h) fun _ _ h => h.2
  · exact traces_pure fun _ h => h

theorem insertEntry_traces (index : PgIndex) (indexInfo : IndexInfo) (result : List Oid) :
    Traces ExecState.log (fun s => Describes indices s.rri)
      (insertEntry server row tupleid index indexInfo result)
      (fun _ s => Describes indices s.rri) [entryCall tupleid index] := by
  apply (ofServer_traces _).silent_bind
  intro values
  apply bind_silent (R := fun _ s => Describes indices s.rri)
  · exact traces_modify fun s hs => ⟨hs.2, rfl⟩
  intro _
  apply traces_get_bind
  intro s hs
  apply fromState (P := fun s => Describes indices s.rri) _ hs
  apply ((ofServer_traces _).weaken (fun _ h => h) fun _ _ h => h.2).silent_bind
  intro satisfies
  apply (checkExclusion_traces server index indexInfo values tupleid satisfies).silent_bind
  intro satisfies'
  split_ifs
  · exact traces_pure fun _ h => h
  · exact traces_pure fun _ h => h

theorem insertIndexTuple_traces (result : List Oid) (hAt : indices[i]? = some index) :
    Traces ExecState.log (fun s => Describes indices s.rri)
      (insertIndexTuple server row tupleid result i)
      (fun _ s => Describes indices s.rri) (insertCalls server row tupleid index) := by
  apply traces_get_bind
  intro s hs
  apply fromState (P := fun s => Describes indices s.rri) _ hs
  obtain ⟨indexInfo, hSlot, hInfo⟩ : ∃ indexInfo,
      slotAt s.rri.riIndexRelationInfo i = .ptr indexInfo ∧
      (indexInfo = indexInfoOf index ∨ indexInfo =
        { indexInfoOf index with iiPredicateState := execPrepareExpr index.indpred }) := by
    rcases hs.info i index hAt with hSlot | hSlot
    · exact ⟨_, hSlot, .inl rfl⟩
    · exact ⟨_, hSlot, .inr rfl⟩
  have hReady : indexInfo.iiReadyForInserts = index.indisready := by
    rcases hInfo with rfl | rfl <;> rfl
  simp only [hs.desc i index hAt, hSlot, hReady]
  cases hIs : index.indisready with
  | false =>
    have hCalls : insertCalls server row tupleid index = [] := by
      simp [insertCalls, needsEntry, hIs]
    rw [hCalls]
    exact traces_pure fun _ h => h
  | true =>
    apply (checkPredicate_traces server row hAt hInfo).silent_bind
    intro holds
    apply traces_of_and
    intro hNeeds
    have hCalls : insertCalls server row tupleid index =
        if holds then [entryCall tupleid index] else [] := by
      rw [hNeeds hIs]
      rfl
    rw [hCalls]
    cases holds with
    | false => exact traces_pure fun _ h => h
    | true => exact insertEntry_traces server row tupleid index indexInfo result

/-- `ExecInsertIndexTuples` calls the access method once for each index that the row
belongs into, in order. -/
theorem execInsertIndexTuples_traces :
    Traces ExecState.log (fun s => Describes indices s.rri)
      (execInsertIndexTuples server row tupleid) (fun _ s => Describes indices s.rri)
      ((indices.filter (needsEntry server row)).map (entryCall tupleid)) := by
  rw [← flatMap_insertCalls, ← flatMap_range]
  apply traces_get_bind
  intro start hStart
  rw [hStart.count]
  apply fromState (P := fun s => Describes indices s.rri) _ hStart
  refine traces_foldlM (I := fun _ _ (s : ExecState) => Describes indices s.rri) _ _ ?_
  intro pre i post result hSplit
  have hAt := getElem?_eq_getElem (range_split hSplit).2
  rw [hAt]
  exact insertIndexTuple_traces server row tupleid result hAt

end Insert

theorem execCloseIndices_ends {indices : List PgIndex} (log : List Call) :
    Ends (fun s => Describes indices s.rri ∧ s.log = log) execCloseIndices
      (fun _ s => s.log = log ++ indices.map closeCall) (fun _ => False) := by
  apply ends_get_bind
  intro start hStart
  rw [hStart.1.count]
  refine ((ends_forM_range
    (I := fun n (s : ExecState) => s.log = log ++ (indices.take n).map closeCall)
    indices.length ?_).fromState ?_).post ?_
  · intro n hn
    have hAt := getElem?_eq_getElem hn
    simp only [hStart.1.desc n _ hAt]
    apply ends_modify
    intro s hs
    rw [take_add_one, hAt, map_append, ← append_assoc, ← hs]
    rfl
  · simpa using hStart.2
  · intro _ s hs
    rwa [take_length] at hs

/-! ## A statement that stores rows -/

section Statement

variable {ρ : Type} (server : Server ρ) (cat : Catalog) (relation : PgClass)

def realIndexes : List PgIndex :=
  (cat.relationGetIndexList relation.oid).filter fun index => !index.indishypothetical

def openingCalls : List Call :=
  (cat.relationGetIndexList relation.oid).flatMap (openCalls false)

def rowCalls (row : ρ × ItemPointer) : List Call :=
  ((realIndexes cat relation).filter (needsEntry server row.1)).map (entryCall row.2)

def closingCalls : List Call := (realIndexes cat relation).map closeCall

/-- Each index is closed as often as it was opened. -/
theorem opens_closed (oid : Oid) :
    (openingCalls cat relation ++ closingCalls cat relation).count (.indexOpen oid) =
      (openingCalls cat relation ++ closingCalls cat relation).count (.indexClose oid) := by
  unfold openingCalls closingCalls realIndexes
  induction cat.relationGetIndexList relation.oid with
  | nil => rfl
  | cons index rest ih =>
    rw [count_append, count_append] at ih ⊢
    rw [flatMap_cons, count_append, count_append, filter_cons]
    cases hHyp : index.indishypothetical with
    | true =>
      simp only [openCalls, staysOpen, hHyp, Bool.not_true, Bool.or_false,
        false_eq_true, if_false, count_cons, count_nil]
      simp only [beq_iff_eq, Call.indexOpen.injEq, Call.indexClose.injEq, reduceCtorEq]
      omega
    | false =>
      simp only [openCalls, staysOpen, hHyp, Bool.not_false, Bool.or_true, if_true,
        map_cons, closeCall, count_cons, count_nil]
      simp only [beq_iff_eq, Call.indexOpen.injEq, Call.indexClose.injEq, reduceCtorEq]
      omega

variable {cat relation}
  (hHas : relation.relhasindex = false → cat.relationGetIndexList relation.oid = [])
  (rows : List (ρ × ItemPointer))

include hHas in
theorem storeRows_traces :
    Traces ExecState.log (fun _ => True) (storeRows server cat relation rows)
      (fun _ _ => True) (openingCalls cat relation ++
        (rows.flatMap (rowCalls server cat relation) ++ closingCalls cat relation)) := by
  apply (execOpenIndices_traces hHas).bind
  intro _
  apply bind (R := fun _ s => Describes (realIndexes cat relation) s.rri)
  · apply (traces_forM rows fun row _ => ?_).weaken (fun s hs => hs.describes) fun _ _ h => h
    apply (execInsertIndexTuples_traces server row.1 row.2).bind_silent
    intro _
    exact traces_pure fun _ h => h
  · intro _ log
    exact (execCloseIndices_ends log).weaken (fun _ h => h) (fun _ _ h => ⟨trivial, h⟩)
      fun _ h => h.elim

theorem realIndexes_nodup : ((realIndexes cat relation).map PgIndex.indexrelid).Nodup := by
  have hSorted := cat.pgIndex.sorted.filter fun index => index.indrelid == relation.oid
  have hReal := hSorted.filter fun index => !index.indishypothetical
  exact (pairwise_map.mpr hReal).imp Nat.ne_of_lt

/-- What the three functions do for the indexes of a relation. -/
structure RowsIndexed (server : Server ρ) (cat : Catalog) (relation : PgClass)
    (rows : List (ρ × ItemPointer)) : Prop where
  distinct : ((realIndexes cat relation).map PgIndex.indexrelid).Nodup
  opens : Traces ExecState.log (fun _ => True) (execOpenIndices server cat relation false)
    (fun _ s => Opened (realIndexes cat relation) s.rri) (openingCalls cat relation)
  describes : ∀ rri, Opened (realIndexes cat relation) rri →
    Describes (realIndexes cat relation) rri
  inserts : ∀ row tupleid,
    Traces ExecState.log (fun s => Describes (realIndexes cat relation) s.rri)
      (execInsertIndexTuples server row tupleid)
      (fun _ s => Describes (realIndexes cat relation) s.rri)
      (rowCalls server cat relation (row, tupleid))
  closes : ∀ log,
    Ends (fun s => Describes (realIndexes cat relation) s.rri ∧ s.log = log) execCloseIndices
      (fun _ s => s.log = log ++ closingCalls cat relation) (fun _ => False)
  statement : Traces ExecState.log (fun _ => True) (storeRows server cat relation rows)
    (fun _ _ => True) (openingCalls cat relation ++
      (rows.flatMap (rowCalls server cat relation) ++ closingCalls cat relation))
  balanced : ∀ oid,
    (openingCalls cat relation ++ closingCalls cat relation).count (.indexOpen oid) =
      (openingCalls cat relation ++ closingCalls cat relation).count (.indexClose oid)

include hHas in
/-- **Every row is indexed in exactly the real indexes**: what `ExecOpenIndices` leaves, the calls
for a row and of `ExecCloseIndices`, and the calls of a whole statement, in which each index is
closed as often as it was opened. -/
theorem rows_indexed : RowsIndexed server cat relation rows where
  distinct := realIndexes_nodup
  opens := execOpenIndices_traces hHas
  describes := fun _ h => h.describes
  inserts := fun row tupleid => execInsertIndexTuples_traces server row tupleid
  closes := execCloseIndices_ends
  statement := storeRows_traces server hHas rows
  balanced := opens_closed cat relation

end Statement

def quietServer : Server Unit where
  openFails := fun _ _ => none
  execEvalExpr := fun _ _ => .ok (some true)
  formIndexDatum := fun _ _ _ => .ok [some "1"]
  indexInsert := fun _ _ _ _ _ => .ok true
  checkExclusionConstraint := fun _ _ _ _ _ => .ok true

/-- One row for a table with the real index 16390 and the hypothetical index 16391. -/
theorem rows_indexed_once :
    (finalState (storeRows quietServer indexedTable ⟨16384, "t", true, false, true⟩
        [((), ⟨0, 1⟩)]) ⟨⟨0, [], []⟩, []⟩).log =
      [.indexOpen 16390, .indexOpen 16391, .indexClose 16391,
        .indexInsert 16390 ⟨0, 1⟩ .no, .indexClose 16390] ∧
    RowsIndexed quietServer indexedTable ⟨16384, "t", true, false, true⟩ [((), ⟨0, 1⟩)] :=
  ⟨by decide, rows_indexed quietServer (by decide) _⟩

end PgTuning.Backend.ResultIndices
