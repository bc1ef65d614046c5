import PgTuning.Backend.IndexCommands
import PgTuning.Backend.Planning

/-!
# The marks of REINDEX

While an index is rebuilt, static variables tell the rest of the server to keep off it: the heap and
the index being processed, and the list of indexes that wait for their turn. `reindex_index` and
`reindex_relation` set them and reset them on both exits of their `PG_TRY` blocks. Here are the
marks, and the references to indexes that the loop of `reindex_relation` takes.

The loop opens each index to see whether it is hypothetical, and closes only the real ones.
`reindexRelation_ends` counts what remains open: one reference for each hypothetical index visited
(`Left`). Of the marks nothing is left, on either exit.
-/

namespace PgTuning.Backend.ReindexMarks

open PgTuning.Lib PgTuning.Lib.Attempt List Triple

/-- The calls that leave the two functions, and the assertion of the loop. -/
inductive Call where
  | heapOpen (relid : Oid)
  | heapClose (relid : Oid)
  /-- `index_open` of the loop over the indexes. -/
  | loopOpen (indexOid : Oid)
  | loopClose (indexOid : Oid)
  | indexOpen (indexOid : Oid)
  | indexClose (indexOid : Oid)
  | checkTableNotInUse (indexOid : Oid)
  | transferPredicateLocks (indexOid : Oid)
  | setNewRelfilenode (indexOid : Oid)
  | indexBuild (indexOid : Oid) (skipConstraintChecks : Bool)
  | markValid (indexOid : Oid)
  | commandCounterIncrement
  | setIndexList (indexes : List Oid)
  /-- `Assert(!ReindexIsProcessingIndex(indexOid))` and its value. -/
  | assertion (indexOid : Oid) (value : Bool)
deriving DecidableEq, Repr

structure ReindexState where
  currentlyReindexedHeap : Option Oid
  currentlyReindexedIndex : Option Oid
  pendingReindexedIndexes : List Oid
  log : List Call
deriving DecidableEq, Repr

/-- The rest of the server: which call fails, after which calls. -/
structure Server where
  fails : List Call → Call → Option Error
  isOtherTemp : Oid → Bool
  /-- `ii_BrokenHotChain` after the build. -/
  brokenHotChain : Oid → Bool

abbrev ReindexM := Attempt Error ReindexState

/-- A table with its indexes; their OIDs are distinct. -/
structure Rel where
  relid : Oid
  indexes : List PgIndex
  distinct : (indexes.map PgIndex.indexrelid).Nodup

structure ReindexFlags where
  processToast : Bool
  suppressIndexUse : Bool
  checkConstraints : Bool
deriving DecidableEq, Repr

/-! ## The marks -/

def reindexIsProcessingIndex (s : ReindexState) (indexOid : Oid) : Bool :=
  s.currentlyReindexedIndex == some indexOid || s.pendingReindexedIndexes.contains indexOid

def removeReindexPending (indexOid : Oid) : ReindexM Unit :=
  modify fun s => { s with
    pendingReindexedIndexes := s.pendingReindexedIndexes.erase indexOid }

def reindexing : Error := ⟨.internalError, "cannot reindex while reindexing"⟩

def setReindexProcessing (heapOid indexOid : Oid) : ReindexM Unit := do
  let s ← get
  throwIf s.currentlyReindexedHeap.isSome reindexing
  modify fun s => { s with
    currentlyReindexedHeap := some heapOid
    currentlyReindexedIndex := some indexOid }
  removeReindexPending indexOid

def resetReindexProcessing : ReindexM Unit :=
  modify fun s => { s with
    currentlyReindexedHeap := none
    currentlyReindexedIndex := none }

def setReindexPending (indexes : List Oid) : ReindexM Unit := do
  let s ← get
  throwIf (!s.pendingReindexedIndexes.isEmpty) reindexing
  modify fun s => { s with pendingReindexedIndexes := indexes }

def resetReindexPending : ReindexM Unit :=
  modify fun s => { s with pendingReindexedIndexes := [] }

/-! ## The two functions -/

section Model

variable (server : Server)

def record (c : Call) : ReindexM Unit :=
  modify fun s => { s with log := s.log ++ [c] }

def call (c : Call) : ReindexM Unit := do
  let s ← get
  match server.fails s.log c with
  | some e => throw e
  | none => record c

/-- The part of `reindex_index` inside its `PG_TRY`. -/
def rebuildIndex (index : PgIndex) (skipConstraintChecks : Bool) : ReindexM Unit := do
  setReindexProcessing index.indrelid index.indexrelid
  call server (.setNewRelfilenode index.indexrelid)
  call server (.indexBuild index.indexrelid skipConstraintChecks)

def reindexIndex (index : PgIndex) (skipConstraintChecks : Bool) : ReindexM Unit := do
  call server (.heapOpen index.indrelid)
  call server (.indexOpen index.indexrelid)
  runIf index.indishypothetical (call server (.indexClose index.indexrelid))
  throwIf index.indishypothetical ⟨.wrongObjectType, "relation is a hypothetical index"⟩
  throwIf (server.isOtherTemp index.indexrelid) ⟨.featureNotSupported,
    "cannot reindex temporary tables of other sessions"⟩
  call server (.checkTableNotInUse index.indexrelid)
  call server (.transferPredicateLocks index.indexrelid)
  tryCatch (rebuildIndex server index skipConstraintChecks) fun e => do
    resetReindexProcessing
    throw e
  resetReindexProcessing
  let skippedConstraint := skipConstraintChecks && (index.indisunique || index.indisexclusion)
  runIf (!skippedConstraint && (!index.indisvalid || !index.indisready ||
      (index.indcheckxmin && !server.brokenHotChain index.indexrelid)))
    (call server (.markValid index.indexrelid))
  call server (.indexClose index.indexrelid)
  call server (.heapClose index.indrelid)

/-- The end of a pass of the loop. -/
def assertVisited (index : PgIndex) : ReindexM Unit := do
  call server .commandCounterIncrement
  let s ← get
  record (.assertion index.indexrelid (!reindexIsProcessingIndex s index.indexrelid))

/-- The loop body of `reindex_relation`, with `doneIndexes`. -/
def visitIndex (flags : ReindexFlags) (isPgClass : Bool) (doneIndexes : List Oid)
    (index : PgIndex) : ReindexM (List Oid) := do
  runIf isPgClass (record (.setIndexList doneIndexes))
  call server (.loopOpen index.indexrelid)
  runIf (!index.indishypothetical) (do
    record (.loopClose index.indexrelid)
    reindexIndex server index (!flags.checkConstraints))
  assertVisited server index
  return if isPgClass then doneIndexes ++ [index.indexrelid] else doneIndexes

/-- The part of `reindex_relation` inside its `PG_TRY`. -/
def visitIndexes (flags : ReindexFlags) (rel : Rel) : ReindexM Unit := do
  runIf flags.suppressIndexUse (do
    setReindexPending (rel.indexes.map PgIndex.indexrelid)
    call server .commandCounterIncrement)
  let _ ← rel.indexes.foldlM
    (visitIndex server flags (rel.relid == relationRelationId)) []

/-- `reindex_relation` up to the toast table. -/
def reindexTable (flags : ReindexFlags) (rel : Rel) : ReindexM Bool := do
  call server (.heapOpen rel.relid)
  tryCatch (visitIndexes server flags rel) fun e => do
    resetReindexPending
    throw e
  resetReindexPending
  runIf (rel.relid == relationRelationId)
    (record (.setIndexList (rel.indexes.map PgIndex.indexrelid)))
  record (.heapClose rel.relid)
  return !rel.indexes.isEmpty

/-- `reindex_relation`. `toasts` are the toast table, its own toast table, and so on. -/
def reindexRelation (flags : ReindexFlags) (rel : Rel) : List Rel → ReindexM Bool
  | [] => reindexTable server flags rel
  | toast :: toasts => do
      let result ← reindexTable server flags rel
      if flags.processToast then do
        let toastResult ← reindexRelation flags toast toasts
        return result || toastResult
      else return result

end Model

/-! ## What is left behind -/

/-- What the loop has done: the hypothetical indexes that it has left open, and the indexes that
were rebuilt. -/
structure Trail where
  hyps : List PgIndex
  built : List Oid

/-- The trail after a visit of these indexes. -/
def Trail.visited (trail : Trail) (indexes : List PgIndex) : Trail where
  hyps := trail.hyps ++ indexes.filter (·.indishypothetical)
  built := trail.built ++ (indexes.filter (!·.indishypothetical)).map PgIndex.indexrelid

theorem Trail.visited_append (trail : Trail) (xs ys : List PgIndex) :
    (trail.visited xs).visited ys = trail.visited (xs ++ ys) := by
  simp [visited]

/-- The index that a call rebuilds. -/
def Call.built : Call → Option Oid
  | .indexBuild indexOid _ => some indexOid
  | _ => none

/-- One reference is open for each hypothetical index of the trail, the assertion failed only for
indexes in `H`, and the trail has the indexes that were rebuilt. -/
structure Left (H : PgIndex → Prop) (trail : Trail) (log : List Call) : Prop where
  references : ∀ oid, log.count (.loopOpen oid) =
    log.count (.loopClose oid) + (trail.hyps.map PgIndex.indexrelid).count oid
  assertions : ∀ oid, .assertion oid false ∈ log → ∃ ix, H ix ∧ ix.indexrelid = oid
  builds : log.filterMap Call.built = trail.built

/-- The marks, and what is left behind. -/
structure Marks (H : PgIndex → Prop) (heap index : Option Oid) (pending : List Oid)
    (trail : Trail) (s : ReindexState) : Prop where
  heap : s.currentlyReindexedHeap = heap
  index : s.currentlyReindexedIndex = index
  pending : s.pendingReindexedIndexes = pending
  left : Left H trail s.log

abbrev Idle (H : PgIndex → Prop) : List Oid → Trail → ReindexState → Prop :=
  Marks H none none

/-- A call that neither takes nor returns a reference of the loop, nor rebuilds an index. -/
def Call.neutral : Call → Bool
  | .loopOpen _ => false
  | .loopClose _ => false
  | .indexBuild _ _ => false
  | .assertion _ value => value
  | _ => true

theorem Left.record {H : PgIndex → Prop} {trail : Trail} {log : List Call}
    (h : Left H trail log) {c : Call} (hc : c.neutral) : Left H trail (log ++ [c]) where
  references := by
    intro oid
    have hOpen : c ≠ .loopOpen oid := by
      rintro rfl
      cases hc
    have hClose : c ≠ .loopClose oid := by
      rintro rfl
      cases hc
    rw [count_append, count_append, count_singleton, count_singleton,
      if_neg (by simpa using hOpen), if_neg (by simpa using hClose)]
    exact h.references oid
  assertions := by
    intro oid hMem
    rcases mem_append.mp hMem with hOld | hNew
    · exact h.assertions oid hOld
    · rw [mem_singleton] at hNew
      rw [← hNew] at hc
      cases hc
  builds := by
    have hBuilt : c.built = none := by
      cases c with
      | indexBuild => cases hc
      | _ => rfl
    simp [hBuilt, h.builds]

structure Server.Quiet (server : Server) : Prop where
  calls : ∀ log c, server.fails log c = none
  ownTables : ∀ oid, server.isOtherTemp oid = false

/-- Something went wrong, with `P`. -/
abbrev Server.Fails (server : Server) (P : ReindexState → Prop) (s : ReindexState) : Prop :=
  ¬ server.Quiet ∧ P s

section Run

variable {server : Server} {H : PgIndex → Prop} {heap index : Option Oid}
  {pending : List Oid} {trail : Trail}

variable {E : ReindexState → Prop} {c : Call} {ix : PgIndex} {log : List Call} {rel : Rel}

theorem record_ends (hc : c.neutral) :
    Ends (Marks H heap index pending trail) (record c) (fun _ => Marks H heap index pending trail)
      E := by
  apply ends_modify
  intro s hs
  exact { hs with left := hs.left.record hc }

theorem call_run {P Q : ReindexState → Prop}
    (hRecord : Ends P (record c) (fun _ => Q) (server.Fails P)) :
    Ends P (call server c) (fun _ => Q) (server.Fails P) := by
  apply ends_get_bind
  intro s hs
  apply fromState _ hs
  cases hFails : server.fails s.log c with
  | some e =>
    apply ends_throw
    intro t ht
    refine ⟨fun hQuiet => ?_, ht⟩
    rw [hQuiet.calls] at hFails
    cases hFails
  | none => exact hRecord

theorem call_ends (hc : c.neutral) :
    Ends (Marks H heap index pending trail) (call server c)
      (fun _ => Marks H heap index pending trail)
      (server.Fails (Marks H heap index pending trail)) :=
  call_run (record_ends hc)

theorem throwIf_ends {P : ReindexState → Prop} {c : Bool} {e : Error}
    (hc : server.Quiet → c = false) : Ends P (throwIf c e) (fun _ => P) (server.Fails P) := by
  cases c with
  | false => exact ends_pure fun _ h => h
  | true =>
    apply ends_throw
    intro s hs
    exact ⟨fun hQuiet => Bool.noConfusion (hc hQuiet), hs⟩

theorem setReindexProcessing_ends (heapOid indexOid : Oid) :
    Ends (Idle H pending trail) (setReindexProcessing heapOid indexOid)
      (fun _ => Marks H (some heapOid) (some indexOid) (pending.erase indexOid) trail) E := by
  apply ends_get_bind
  intro s hs
  rw [hs.heap]
  apply fromState _ hs
  apply bind (R := fun _ => Idle H pending trail)
  · exact ends_pure fun _ h => h
  intro _
  apply bind (R := fun _ => Marks H (some heapOid) (some indexOid) pending trail)
  · apply ends_modify
    intro t ht
    exact { ht with heap := rfl, index := rfl }
  intro _
  apply ends_modify
  intro t ht
  exact { ht with pending := by rw [← ht.pending] }

theorem Left.rebuilt (h : Left H trail log) (oid : Oid) (skip : Bool) :
    Left H { trail with built := trail.built ++ [oid] } (log ++ [.indexBuild oid skip]) where
  references := by
    intro oid'
    have hOld := h.references oid'
    simpa [count_append, count_cons] using hOld
  assertions := by
    intro oid' hMem
    exact h.assertions oid' (by simpa using hMem)
  builds := by simp [h.builds, Call.built]

/-- The rebuild leaves its marks set, and takes the index off the list. -/
theorem rebuildIndex_ends (ix : PgIndex) (skip : Bool) :
    Ends (Idle H pending trail) (rebuildIndex server ix skip)
      (fun _ => Marks H (some ix.indrelid) (some ix.indexrelid) (pending.erase ix.indexrelid)
        { trail with built := trail.built ++ [ix.indexrelid] })
      (server.Fails (Marks H (some ix.indrelid) (some ix.indexrelid)
        (pending.erase ix.indexrelid) trail)) := by
  apply (setReindexProcessing_ends ix.indrelid ix.indexrelid).seq
  apply (call_ends rfl).seq
  apply call_run
  apply ends_modify
  intro s hs
  exact { hs with left := hs.left.rebuilt ix.indexrelid skip }

theorem resetReindexProcessing_ends :
    Ends (Marks H heap index pending trail) resetReindexProcessing
      (fun _ => Idle H pending trail) E := by
  apply ends_modify
  intro s hs
  exact { hs with heap := rfl, index := rfl }

/-- `reindex_index` of a real index: on either exit no index is being processed. -/
theorem reindexIndex_ends (hReal : ix.indishypothetical = false) (skip : Bool) :
    Ends (Idle H pending trail) (reindexIndex server ix skip)
      (fun _ => Idle H (pending.erase ix.indexrelid)
        { trail with built := trail.built ++ [ix.indexrelid] })
      (server.Fails fun s => ∃ pending built, Idle H pending { trail with built := built } s) := by
  have hAny : ∀ pending built s, server.Fails (Idle H pending { trail with built := built }) s →
      server.Fails (fun s => ∃ pending built, Idle H pending { trail with built := built } s) s :=
    fun _ _ _ hs => ⟨hs.1, _, _, hs.2⟩
  apply ((call_ends rfl).orElse (hAny _ _)).seq
  apply ((call_ends rfl).orElse (hAny _ _)).seq
  apply (ends_runIf fun _ => (call_ends rfl).orElse (hAny _ _)).seq
  apply ((throwIf_ends fun _ => hReal).orElse (hAny _ _)).seq
  apply ((throwIf_ends fun hQuiet => hQuiet.ownTables _).orElse (hAny _ _)).seq
  apply ((call_ends rfl).orElse (hAny _ _)).seq
  apply ((call_ends rfl).orElse (hAny _ _)).seq
  apply Triple.bind
  · -- The handler runs from the state of the failure, with the marks still set.
    apply (rebuildIndex_ends ix skip).tryCatch
    intro e
    apply bind (R := fun _ s => ¬ server.Quiet ∧ Idle H (pending.erase ix.indexrelid) trail s)
    · apply ends_modify
      rintro s ⟨hLoud, hs⟩
      exact ⟨hLoud, { hs with heap := rfl, index := rfl }⟩
    · intro _
      exact ends_throw (hAny _ _)
  intro _
  apply resetReindexProcessing_ends.seq
  apply (ends_runIf fun _ => (call_ends rfl).orElse (hAny _ _)).seq
  apply ((call_ends rfl).orElse (hAny _ _)).seq
  exact (call_ends rfl).orElse (hAny _ _)

theorem Left.opened (h : Left H trail log) (ix : PgIndex) :
    Left H { trail with hyps := trail.hyps ++ [ix] } (log ++ [.loopOpen ix.indexrelid]) where
  references := by
    intro oid
    have hOld := h.references oid
    simp only [count_append, map_append, map_cons, map_nil,
      count_cons, count_nil, beq_iff_eq, Call.loopOpen.injEq, reduceCtorEq, if_false]
    omega
  assertions := by
    intro oid hMem
    exact h.assertions oid (by simpa using hMem)
  builds := by simp [h.builds, Call.built]

theorem Left.closed (h : Left H { trail with hyps := trail.hyps ++ [ix] } log) :
    Left H trail (log ++ [.loopClose ix.indexrelid]) where
  references := by
    intro oid
    have hOld := h.references oid
    simp only [map_append, map_cons, map_nil, count_append,
      count_cons, count_nil, beq_iff_eq] at hOld
    simp only [count_append, count_cons, count_nil, beq_iff_eq,
      Call.loopClose.injEq, reduceCtorEq, if_false]
    omega
  assertions := by
    intro oid hMem
    exact h.assertions oid (by simpa using hMem)
  builds := by simp [h.builds, Call.built]

/-- The assertion fails only for an index in `H`. -/
theorem Left.asserted (h : Left H trail log) {value : Bool} (hValue : value = false → H ix) :
    Left H trail (log ++ [.assertion ix.indexrelid value]) where
  references := by
    intro oid
    have hOld := h.references oid
    simpa [count_cons] using hOld
  assertions := by
    intro oid hMem
    rcases mem_append.mp hMem with hOld | hNew
    · exact h.assertions oid hOld
    · rw [mem_singleton, Call.assertion.injEq] at hNew
      exact ⟨ix, hValue hNew.2.symm, hNew.1.symm⟩
  builds := by simp [h.builds, Call.built]

theorem loopOpen_ends (ix : PgIndex) :
    Ends (Marks H heap index pending trail) (call server (.loopOpen ix.indexrelid))
      (fun _ => Marks H heap index pending { trail with hyps := trail.hyps ++ [ix] })
      (server.Fails (Marks H heap index pending trail)) := by
  apply call_run
  apply ends_modify
  intro s hs
  exact { hs with left := hs.left.opened ix }

/-- After a failure no index is being processed; what is left behind is in `H`. -/
def FailedIn (server : Server) (H : PgIndex → Prop) (s : ReindexState) : Prop :=
  ¬ server.Quiet ∧ ∃ pending trail, (∀ ix ∈ trail.hyps, H ix) ∧ Marks H none none pending trail s

theorem assertVisited_ends (hHyps : ∀ x ∈ trail.hyps, H x) (hDone : ix.indexrelid ∈ pending → H ix) :
    Ends (Idle H pending trail) (assertVisited server ix)
      (fun _ => Idle H pending trail) (FailedIn server H) := by
  apply ((call_ends rfl).orElse fun s hs => ⟨hs.1, pending, trail, hHyps, hs.2⟩).seq
  apply ends_get_bind
  intro s hs
  apply fromState _ hs
  apply ends_modify
  intro t ht
  refine { ht with left := ht.left.asserted fun hValue => hDone ?_ }
  simpa [reindexIsProcessingIndex, hs.index, hs.pending] using hValue

/-- One pass of the loop. Only a hypothetical index leaves something behind. -/
theorem visitIndex_ends (server : Server) (flags : ReindexFlags) (isPgClass : Bool)
    (doneIndexes : List Oid) (hH : ix.indishypothetical → H ix)
    (hHyps : ∀ x ∈ trail.hyps, H x) (hNodup : pending.Nodup) :
    Ends (Idle H pending trail) (visitIndex server flags isPgClass doneIndexes ix)
      (fun _ s => ∃ pending, pending.Nodup ∧ Idle H pending (trail.visited [ix]) s)
      (FailedIn server H) := by
  have hFail : ∀ s, ¬ server.Quiet ∧ Idle H pending trail s → FailedIn server H s :=
    fun s hs => ⟨hs.1, pending, trail, hHyps, hs.2⟩
  apply (ends_runIf fun _ => record_ends rfl).seq
  apply ((loopOpen_ends ix).orElse hFail).seq
  cases hHyp : ix.indishypothetical with
  | true =>
    have hVisited : trail.visited [ix] = { trail with hyps := trail.hyps ++ [ix] } := by
      simp [Trail.visited, hHyp]
    have hMore : ∀ x ∈ trail.hyps ++ [ix], H x := forall_mem_concat hHyps (hH hHyp)
    apply bind (R := fun _ => Idle H pending { trail with hyps := trail.hyps ++ [ix] })
    · exact ends_pure fun _ h => h
    intro _
    apply (assertVisited_ends hMore fun _ => hH hHyp).seq
    apply ends_pure
    intro s hs
    rw [hVisited]
    exact ⟨pending, hNodup, hs⟩
  | false =>
    have hVisited : trail.visited [ix] = { trail with built := trail.built ++ [ix.indexrelid] } := by
      simp [Trail.visited, hHyp]
    apply bind (R := fun _ => Idle H (pending.erase ix.indexrelid) (trail.visited [ix]))
    · apply bind (R := fun _ => Idle H pending trail)
      · apply ends_modify
        intro s hs
        exact { hs with left := hs.left.closed }
      · intro _
        rw [hVisited]
        apply (reindexIndex_ends hHyp _).orElse
        rintro s ⟨hLoud, pending', built, hs⟩
        exact ⟨hLoud, pending', { trail with built := built }, hHyps, hs⟩
    intro _
    apply (assertVisited_ends (by rw [hVisited]; exact hHyps)
      fun hIn => absurd hIn hNodup.not_mem_erase).seq
    exact ends_pure fun s hs => ⟨_, hNodup.erase _, hs⟩

variable (flags : ReindexFlags)

section

variable (hH : ∀ ix ∈ rel.indexes, ix.indishypothetical → H ix) (hHyps : ∀ x ∈ trail.hyps, H x)
include hH hHyps

/-- The loop, with the list of pending indexes set before it if asked for. -/
theorem visitIndexes_ends :
    Ends (Idle H [] trail) (visitIndexes server flags rel)
      (fun _ s => ∃ pending, Idle H pending (trail.visited rel.indexes) s) (FailedIn server H) := by
  apply bind (R := fun _ s => ∃ pending, pending.Nodup ∧ Idle H pending trail s)
  · unfold runIf
    split_ifs
    · apply bind (R := fun _ => Idle H (rel.indexes.map PgIndex.indexrelid) trail)
      · apply ends_get_bind
        intro s hs
        rw [hs.pending]
        apply fromState _ hs
        apply bind (R := fun _ => Idle H [] trail)
        · exact ends_pure fun _ h => h
        · intro _
          apply ends_modify
          intro t ht
          exact { ht with pending := rfl }
      · intro _
        apply (call_ends rfl).weaken fun _ h => h
        · exact fun _ s hs => ⟨_, rel.distinct, hs⟩
        · exact fun s hs => ⟨hs.1, _, trail, hHyps, hs.2⟩
    · apply ends_pure
      exact fun s hs => ⟨[], nodup_nil, hs⟩
  intro _
  have hNone : trail.visited [] = trail := by simp [Trail.visited]
  have hLoop := ends_foldlM (I := fun done (_ : List Oid) s => ∃ pending, pending.Nodup ∧
      Idle H pending (trail.visited done) s)
    (f := visitIndex server flags (rel.relid == relationRelationId))
    (X := fun _ => FailedIn server H) rel.indexes [] ?_
  · rw [hNone] at hLoop
    apply hLoop.seq
    apply ends_pure
    rintro s ⟨pending, -, hs⟩
    exact ⟨pending, hs⟩
  · rintro pre ix post doneIndexes hSplit s ⟨pending, hNodup, hs⟩
    have hMem : ∀ x, x ∈ pre ++ ix :: post → x ∈ rel.indexes := fun x hx => hSplit ▸ hx
    have hSeen : ∀ x ∈ (trail.visited pre).hyps, H x := by
      refine forall_mem_append.mpr ⟨hHyps, fun x hNew => ?_⟩
      obtain ⟨hPre, hHyp⟩ := mem_filter.mp hNew
      exact hH x (hMem x (mem_append_left _ hPre)) hHyp
    have hPass := visitIndex_ends server flags (rel.relid == relationRelationId) doneIndexes
      (hH ix (hMem ix (by simp))) hSeen hNodup s hs
    rw [Trail.visited_append] at hPass
    exact hPass

theorem reindexTable_ends :
    Ends (Idle H [] trail) (reindexTable server flags rel)
      (fun _ => Idle H [] (trail.visited rel.indexes))
      (server.Fails fun s => ∃ trail, (∀ ix ∈ trail.hyps, H ix) ∧ Idle H [] trail s) := by
  apply ((call_ends rfl).orElse fun s hs => ⟨hs.1, trail, hHyps, hs.2⟩).seq
  apply Triple.bind
  · apply (visitIndexes_ends flags hH hHyps).tryCatch
    intro e
    apply bind (R := fun _ s => ¬ server.Quiet ∧
      ∃ trail, (∀ ix ∈ trail.hyps, H ix) ∧ Idle H [] trail s)
    · apply ends_modify
      rintro s ⟨hLoud, pending, trail', hIn, hs⟩
      exact ⟨hLoud, trail', hIn, { hs with pending := rfl }⟩
    · intro _
      exact ends_throw fun _ h => h
  intro _
  apply bind (R := fun _ => Idle H [] (trail.visited rel.indexes))
  · apply ends_modify
    rintro s ⟨pending, hs⟩
    exact { hs with pending := rfl }
  intro _
  apply (ends_runIf fun _ => record_ends rfl).seq
  apply (record_ends rfl).seq
  exact ends_pure fun _ h => h

end

/-- The tables `reindex_relation` goes through. -/
def visitedTables (flags : ReindexFlags) (rel : Rel) (toasts : List Rel) : List Rel :=
  rel :: if flags.processToast then toasts else []

def visitedIndexes (flags : ReindexFlags) (rel : Rel) (toasts : List Rel) : List PgIndex :=
  (visitedTables flags rel toasts).flatMap Rel.indexes

theorem reindexRelation_ends (toasts : List Rel)
    (hH : ∀ ix ∈ visitedIndexes flags rel toasts, ix.indishypothetical → H ix)
    (hHyps : ∀ x ∈ trail.hyps, H x) :
    Ends (Idle H [] trail) (reindexRelation server flags rel toasts)
      (fun _ => Idle H [] (trail.visited (visitedIndexes flags rel toasts)))
      (server.Fails fun s => ∃ trail, (∀ ix ∈ trail.hyps, H ix) ∧ Idle H [] trail s) := by
  induction toasts generalizing rel trail with
  | nil =>
    have hOnly : visitedIndexes flags rel [] = rel.indexes := by
      simp [visitedIndexes, visitedTables]
    rw [hOnly] at hH ⊢
    exact reindexTable_ends flags hH hHyps
  | cons toast toasts ih =>
    cases hFlag : flags.processToast with
    | false =>
      have hOnly : visitedIndexes flags rel (toast :: toasts) = rel.indexes := by
        simp [visitedIndexes, visitedTables, hFlag]
      rw [hOnly] at hH ⊢
      apply (reindexTable_ends flags hH hHyps).bind
      intro result
      rw [hFlag]
      exact ends_pure fun _ h => h
    | true =>
      have hSplit : visitedIndexes flags rel (toast :: toasts) =
          rel.indexes ++ visitedIndexes flags toast toasts := by
        simp [visitedIndexes, visitedTables, hFlag]
      rw [hSplit, ← Trail.visited_append]
      rw [hSplit, forall_mem_append] at hH
      apply (reindexTable_ends flags hH.1 hHyps).bind
      intro result
      rw [hFlag]
      have hSeen : ∀ x ∈ (trail.visited rel.indexes).hyps, H x :=
        forall_mem_append.mpr ⟨hHyps, fun x hNew => hH.1 x (mem_of_mem_filter hNew)
          (of_mem_filter hNew)⟩
      apply (ih hH.2 hSeen).bind
      intro toastResult
      exact ends_pure fun _ h => h

end Run

/-! ## A tidy run -/

def idle : ReindexState := ⟨none, none, [], []⟩

/-- What a run leaves: every reference returned, no assertion failed, and no marks. -/
structure Tidy (s : ReindexState) : Prop where
  references : ∀ oid, s.log.count (.loopOpen oid) = s.log.count (.loopClose oid)
  assertions : ∀ oid, .assertion oid false ∉ s.log
  heap : s.currentlyReindexedHeap = none
  index : s.currentlyReindexedIndex = none
  pending : s.pendingReindexedIndexes = []

theorem Marks.tidy {H : PgIndex → Prop} {trail : Trail} {s : ReindexState}
    (h : Idle H [] trail s) (hHyps : trail.hyps = []) (hNone : ∀ ix, ¬ H ix) : Tidy s where
  references := by
    intro oid
    have hCount := h.left.references oid
    rw [hHyps] at hCount
    exact hCount
  assertions := by
    intro oid hMem
    obtain ⟨ix, hIx, -⟩ := h.left.assertions oid hMem
    exact hNone ix hIx
  heap := h.heap
  index := h.index
  pending := h.pending

theorem idle_marks (H : PgIndex → Prop) : Idle H [] ⟨[], []⟩ idle :=
  ⟨rfl, rfl, rfl, ⟨fun _ => rfl, nofun, rfl⟩⟩

def quietServer : Server := ⟨fun _ _ => none, fun _ => false, fun _ => false⟩

theorem quietServer_quiet : quietServer.Quiet := ⟨fun _ _ => rfl, fun _ => rfl⟩

/-- When nothing fails every index is visited. -/
theorem reindexRelation_quiet (flags : ReindexFlags) (rel : Rel) (toasts : List Rel) :
    Left (fun _ => True) (Trail.visited ⟨[], []⟩ (visitedIndexes flags rel toasts))
      (finalState (reindexRelation quietServer flags rel toasts) idle).log := by
  refine (Ends.finalState (E := Idle (fun _ => True) [] _) (Ends.orElse (reindexRelation_ends flags
    toasts (fun _ _ _ => trivial) fun _ _ => trivial) ?_) (idle_marks _)).left
  exact fun s hs => (hs.1 quietServer_quiet).elim

/-- Without hypothetical indexes every run is tidy. -/
theorem reindexRelation_tidy (server : Server) {flags : ReindexFlags} {rel : Rel}
    {toasts : List Rel} (hNone : ∀ ix ∈ visitedIndexes flags rel toasts, ¬ ix.indishypothetical) :
    Tidy (finalState (reindexRelation server flags rel toasts) idle) := by
  have hEnds : Ends (Idle (fun _ => False) [] ⟨[], []⟩)
      (reindexRelation server flags rel toasts) (fun _ => Tidy) Tidy := by
    apply (reindexRelation_ends flags toasts hNone (by simp)).weaken fun _ h => h
    · intro _ s hs
      exact hs.tidy (filter_eq_nil_iff.mpr hNone) fun _ h => h
    · rintro s ⟨-, trail, hIn, hs⟩
      exact hs.tidy (eq_nil_iff_forall_not_mem.mpr hIn) fun _ h => h
  exact hEnds.finalState (idle_marks _)

/-- **When `reindex_relation` is tidy**, whatever fails on the way: no table it goes through
has a hypothetical index. -/
theorem reindexRelation_tidy_iff (flags : ReindexFlags) (rel : Rel) (toasts : List Rel) :
    (∀ server, Tidy (finalState (reindexRelation server flags rel toasts) idle)) ↔
      ∀ table ∈ visitedTables flags rel toasts, ∀ ix ∈ table.indexes,
        ix.indishypothetical = false := by
  constructor
  · intro hTidy table hTable ix hix
    by_contra hHyp
    rw [Bool.not_eq_false] at hHyp
    have hMem : ix.indexrelid ∈ ((visitedIndexes flags rel toasts).filter
        (·.indishypothetical)).map PgIndex.indexrelid := by
      apply mem_map_of_mem
      exact mem_filter.mpr ⟨mem_flatMap.mpr ⟨table, hTable, hix⟩, hHyp⟩
    have hPos := count_pos_iff.mpr hMem
    have hCount := (reindexRelation_quiet flags rel toasts).references ix.indexrelid
    simp only [(hTidy quietServer).references, Trail.visited, nil_append] at hCount
    omega
  · intro hReal server
    apply reindexRelation_tidy
    intro ix hMem
    obtain ⟨table, hTable, hix⟩ := mem_flatMap.mp hMem
    rw [hReal table hTable ix hix]
    exact Bool.false_ne_true

def mixedTable : Rel := ⟨16384, [keyIndex 16390 false, keyIndex 16391 true], by decide⟩

/-- After `VACUUM FULL` of that table: the hypothetical index is still pending when the loop
has visited it, and nothing closes it. -/
theorem hypothetical_stays_open :
    let s := finalState (reindexRelation quietServer ⟨false, true, false⟩ mixedTable []) idle
    .assertion 16391 false ∈ s.log ∧ s.log.count (.loopOpen 16391) = 1 ∧
      s.log.count (.loopClose 16391) = 0 ∧ ¬ Tidy s := by
  intro s
  have hAsserted : .assertion 16391 false ∈ s.log := by decide
  exact ⟨hAsserted, by decide, by decide, fun h => h.assertions 16391 hAsserted⟩

end PgTuning.Backend.ReindexMarks
