import PgTuning.Advisor.Coverage
import PgTuning.Lib.Raises

/-!
# What pricing and selecting can raise

Two kinds of exception can stop the advisor: an `SQLException`, which is the database's answer, and
a failure of the advisor itself, a `null` that is dereferenced or a list that is read past its end.
This module follows the exceptions as `HypConfig` follows the states.

`greedymk` has a configuration to return as soon as there are enough candidates, and then only the
database can stop it. The probes of `analyze` run in a `try` block, after which a failed probe shows
up as a list that is too short. A probe creates one candidate after everything registered was
dropped, so its `CREATE` can only collide with a *real* index of that name. But the selection has
created the same candidate under the same name before, and would not have come to an end (`Clear`,
`costOf_readies`, `whatIf_returns`).
-/

namespace PgTuning.Advisor

open PgTuning.Lib PgTuning.Lib.Attempt List Function Triple Nat

abbrev FromDatabase (e : JavaException) : Prop := e = .sql

/-! ## What the connection can raise -/

/-- Every `EXPLAIN` returns a cost. -/
def AlwaysPrices (server : Server) : Prop :=
  ∀ sql con, (server.explain sql con).isSome = true

/-- The server refuses no `CREATE` and no `DROP` of a hypothetical index. (A
taken name is not a refusal: the statement then fails by itself.) -/
structure AcceptsHypothetical (server : Server) : Prop where
  creates : ∀ name tableName columnNames con,
    server.fails (Stmt.createIndex true name tableName columnNames).sql con = false
  drops : ∀ name con, server.fails (Stmt.dropIndex true name).sql con = false

theorem AcceptsHypothetical.probeDropsSucceed {server : Server}
    (h : AcceptsHypothetical server) : ProbeDropsSucceed server := by
  intro con ix hHyp _
  rw [hHyp]
  exact h.drops _ con

section Exceptions

variable {server : Server}

theorem drop_raises (ix : Index) : Maintains FromDatabase (fun _ => True) (ix.drop server) := by
  intro con _
  rcases drop_cases server ix con with ⟨hRun, -⟩ | ⟨hRun, -⟩ | ⟨hRun, -⟩
  · rw [hRun]
    trivial
  · rw [hRun]
    trivial
  · rw [hRun]

theorem create_raises (ix : Index) : Maintains FromDatabase (fun _ => True) (ix.create server) := by
  intro con _
  rcases create_cases server ix con with ⟨hRun, -⟩ | ⟨hRun, -⟩ | ⟨hRun, -⟩
  · rw [hRun]
    trivial
  · rw [hRun]
    trivial
  · rw [hRun]

theorem simulateIndex_raises (ix : Index) :
    Maintains FromDatabase (fun _ => True) (simulateIndex server ix) := by
  unfold simulateIndex
  split_ifs with hHyp
  · exact (create_raises ix).bind fun _ => ends_modify fun _ _ => trivial
  · exact ends_pure fun _ _ => trivial

theorem simulateConfig_raises (configuration : ConfigRef) :
    Maintains FromDatabase (fun _ => True) (simulateConfig server configuration) := by
  apply ends_get_bind
  intro con _
  apply ((ends_forM_const _ fun ix _ => drop_raises ix).fromState trivial).seq
  apply seq (R := fun _ => True) (ends_modify fun _ _ => trivial)
  apply ends_get_bind
  intro con _
  exact (ends_forM_const _ fun ix _ => simulateIndex_raises ix).fromState trivial

variable (hServer : AlwaysPrices server)
include hServer

theorem execExplain_raises (query : JString) {X : JavaException → Prop} {P : Connection → Prop}
    (hTick : ∀ con, P con → P con.tick) :
    Raises X P (execExplain server query) (fun t con => t.isSome ∧ P con) :=
  fun con hP => ⟨hServer _ con, hTick con hP⟩

omit hServer in
theorem unbox_raises {σ : Type} {X : JavaException → Prop} {P : σ → Prop} (t : Option ℚ) :
    Raises X (fun s => t.isSome ∧ P s) (unbox t) fun _ => P := by
  intro s hs
  cases t with
  | none => exact absurd hs.1 (by simp)
  | some x => exact hs.2

theorem costOf_raises (workload : List JString) (configuration : ConfigRef) :
    Maintains FromDatabase (fun _ => True) (costOf server workload configuration) := by
  apply (simulateConfig_raises configuration).seq
  apply ends_foldlM_const (I := fun _ => True)
  intro query _ cst
  apply (execExplain_raises hServer query fun _ h => h).bind
  intro t
  exact (unbox_raises t).bind fun _ => ends_pure fun _ _ => trivial

theorem costOfCreating_raises (ix : Index) :
    Maintains FromDatabase (fun _ => True) (costOfCreating server ix) := by
  intro con _
  obtain ⟨pre, con₁, hPre, hSome, -⟩ :=
    (execExplain_raises (P := fun _ => True) hServer
      (creationQuery ix) fun _ h => h).returns trivial
  unfold costOfCreating
  rw [bind_run_ok hPre]
  refine bind (create_raises ix) (fun _ => ?_) con₁ trivial
  apply (execExplain_raises hServer (creationQuery ix) fun _ h => h).bind
  intro post con₂ hPost
  refine bind (drop_raises ix) (fun _ => ?_) con₂ trivial
  intro con₃ _
  refine bind (unbox_raises (P := fun _ => True) pre) (fun _ => ?_) con₃ ⟨hSome, trivial⟩
  intro con₄ _
  exact bind (unbox_raises (P := fun _ => True) post)
    (fun _ => ends_pure fun _ _ => trivial) con₄ ⟨hPost.1, trivial⟩

theorem changeConfig_raises (cur target : List Index) :
    Maintains FromDatabase (fun _ => True) (changeConfig server cur target) := by
  apply (simulateConfig_raises _).seq
  apply ends_foldlM_const (I := fun _ => True)
  intro ix _ cost
  exact (costOfCreating_raises hServer ix).bind fun _ => ends_pure fun _ _ => trivial

end Exceptions

/-! ## What pricing leaves alone -/

/-- A candidate of the database `d`, made before the identity `n`. -/
structure Candidate (d : JString) (n : Nat) (ix : Index) : Prop where
  hypothetical : ix.hypothetical = true
  dbname : ix.dbname = d
  ref : ix.ref < n

/-- No real index has the name under which `ix` is created. -/
def Clear (ix : Index) (con : Connection) : Prop :=
  ∀ e ∈ con.present, e.hypothetical = false → e.name ≠ ix.nameFor con

theorem defaultName_ne_nil (ix : Index) : ix.defaultName ≠ [] := by
  unfold Index.defaultName
  cases ix.hypothetical <;> simp [js]

theorem nameFor_setName (con : Connection) (ix iy : Index) :
    iy.nameFor (con.setName ix (ix.nameFor con)) = iy.nameFor con := by
  by_cases hEq : iy = ix
  · subst hEq
    have hNe : iy.nameFor con ≠ [] := by
      unfold Index.nameFor
      split_ifs with hName
      · exact defaultName_ne_nil iy
      · exact hName
    unfold Index.nameFor
    rw [Connection.setName_name, update_self]
    exact if_neg hNe
  · unfold Index.nameFor
    rw [Connection.setName_name, update_of_ne hEq]

/-- What pricing does not change: the next identity is `n`, the objects
registered are older, and the candidates `cand` collide with no real index. -/
structure Framed (n : Nat) (cand : List Index) (con : Connection) : Prop where
  refs : con.nextRef = n
  below : ∀ ix ∈ con.curHypConfig, ix.ref < n
  clear : ∀ a ∈ cand, Clear a con

section Frames

variable (server : Server) {n : Nat} {cand : List Index}

theorem drop_framed (ix : Index) : Keeps (Framed n cand) (ix.drop server) := by
  apply keeps_drop
  · exact fun con h => ⟨h.refs, h.below, fun a ha e he =>
      h.clear a ha e (mem_filter.mp he).1⟩
  · exact fun con h => { h with }

variable {ix : Index}

theorem create_framed (hHyp : ix.hypothetical) : Keeps (Framed n cand) (ix.create server) := by
  apply keeps_create
  · refine fun con h => ⟨h.refs, h.below, ?_⟩
    intro a ha e he hReal
    show e.name ≠ a.nameFor (con.setName ix (ix.nameFor con))
    rw [nameFor_setName]
    rcases mem_cons.mp (show e ∈ _ :: con.present from he) with hNew | hOld
    · rw [hNew, hHyp] at hReal
      cases hReal
    · exact h.clear a ha e hOld hReal
  · refine fun con h => ⟨h.refs, h.below, ?_⟩
    intro a ha e he hReal
    show e.name ≠ a.nameFor (con.setName ix (ix.nameFor con))
    rw [nameFor_setName]
    exact h.clear a ha e he hReal

theorem simulateConfig_framed {S : List Index} (hS : ∀ ix ∈ S, ix.ref < n) :
    Keeps (Framed n cand) (simulateConfig server (.list S)) := by
  apply keeps_simulateConfig (drop_framed server) fun con h => ⟨h.refs, by simp, h.clear⟩
  intro ix hMem
  apply keeps_simulateIndex (create_framed server)
  exact fun con h => ⟨h.refs, forall_mem_concat h.below (hS ix hMem), h.clear⟩

theorem changeConfig_framed {d : JString} (cur : List Index) {target : List Index}
    (hTarget : ∀ ix ∈ target, Candidate d n ix) :
    Keeps (Framed n cand) (changeConfig server cur target) := by
  have hCommon : ∀ ix ∈ commonInd cur target, ix.ref < n :=
    fun ix h => (hTarget ix (mem_of_mem_commonInd h)).ref
  apply (simulateConfig_framed server hCommon).seq
  apply ends_foldlM_const
  intro ix hMem cost
  have hIx := hTarget ix (mem_filter.mp hMem).1
  exact (keeps_costOfCreating (fun con h => { h with }) (create_framed server hIx.hypothetical)
    (drop_framed server ix)).bind fun _ => keeps_pure _

end Frames

/-! ## Pricing from a ready connection -/

/-- The state of the connection between two calls of the advisor, while the
candidates `cand` are in use. -/
structure Ready (d : JString) (n : Nat) (cand : List Index) (con : Connection) :
    Prop where
  consistent : ConsistentAt d con
  framed : Framed n cand con

variable {α : Type} {X : JavaException → Prop} {CI : List Index} {query : JString}

/-- The exceptions, the ledger and the frame of one operation, put together. -/
theorem ready_of_parts {d : JString} {n : Nat} {cand : List Index} {m : JavaM α}
    (hRaises : Maintains FromDatabase (fun _ => True) m) (hConsistent : Keeps (ConsistentAt d) m)
    (hFramed : Keeps (Framed n cand) m) : Maintains FromDatabase (Ready d n cand) m :=
  ((hRaises.join hConsistent).join hFramed).weaken
    (fun _ h => ⟨⟨trivial, h.consistent⟩, h.framed⟩) fun _ _ h => ⟨h.1.2, h.2⟩

section Pricing

variable {server : Server} {d : JString} {n : Nat} {cand : List Index}

variable {S : List Index} {ix : Index}

theorem costOf_ready (hPrices : AlwaysPrices server) (workload : List JString)
    (hS : ∀ ix ∈ S, Candidate d n ix) :
    Maintains FromDatabase (Ready d n cand) (costOf server workload (.list S)) :=
  ready_of_parts (costOf_raises hPrices workload _)
    (costOf_keeps server workload (.list S) fun ix h => (hS ix h).dbname)
    (keeps_costOf (fun _ h => { h with })
      (simulateConfig_framed server fun ix h => (hS ix h).ref) workload)

theorem changeConfig_ready (hPrices : AlwaysPrices server) (hAccepts : AcceptsHypothetical server)
    (cur : List Index) {target : List Index} (hTarget : ∀ ix ∈ target, Candidate d n ix) :
    Maintains FromDatabase (Ready d n cand) (changeConfig server cur target) :=
  ready_of_parts (changeConfig_raises hPrices cur target)
    (changeConfig_keeps server hAccepts.probeDropsSucceed cur fun ix h => (hTarget ix h).dbname)
    (changeConfig_framed server cur hTarget)

/-- An index just created collides with no real index. -/
theorem simulateIndex_clears (server : Server) {done : List Index}
    (hHyp : ix.hypothetical) (hDb : ix.dbname = d) :
    Ends (fun con => SimulatedSoFar d done con ∧ ∀ a ∈ done, Clear a con)
      (simulateIndex server ix)
      (fun _ con => ∀ a ∈ done ++ [ix], Clear a con) (fun _ => True) := by
  rintro con ⟨⟨⟨hCon, hName⟩, hAll, -⟩, hClear⟩
  have hExtend : ∀ con' : Connection, Clear ix con' →
      (∀ a ∈ done, Clear a con') → ∀ a ∈ done ++ [ix], Clear a con' := by
    intro con' hIx hDone
    exact forall_mem_concat hDone hIx
  unfold simulateIndex
  rw [if_pos hHyp, bind_run]
  rcases create_cases server ix con with ⟨hRun, hWhy⟩ | ⟨hRun, -, -, hFree⟩ | ⟨hRun, -⟩
  · -- Already there: it is registered, so the loop has met it before.
    rw [hRun]
    have hMat := hWhy.resolve_right (not_not.mpr (hName.trans hDb.symm))
    have hMem : ix ∈ con.curHypConfig := by
      simpa using hCon.registered ix hHyp (hDb.trans hName.symm) hMat
    rw [hAll] at hMem
    exact hExtend _ (hClear ix (mem_filter.mp hMem).1) hClear
  · rw [hRun]
    have hNames : ∀ a : Index, a.nameFor (created con ix) = a.nameFor con := nameFor_setName con ix
    have hReal : ∀ e ∈ (created con ix).present, e.hypothetical = false →
        e ∈ con.present := by
      intro e he hNot
      rcases mem_cons.mp (show e ∈ _ :: con.present from he) with hNew | hOld
      · rw [hNew, hHyp] at hNot
        cases hNot
      · exact hOld
    apply hExtend
    · intro e he hNot
      show e.name ≠ ix.nameFor (created con ix)
      rw [hNames]
      exact hFree e (hReal e he hNot)
    · intro a ha e he hNot
      show e.name ≠ a.nameFor (created con ix)
      rw [hNames]
      exact hClear a ha e (hReal e he hNot) hNot
  · rw [hRun]
    trivial

/-- A configuration that was simulated collides with no real index. -/
theorem simulateConfig_clears (hS : ∀ ix ∈ S, Candidate d n ix) :
    Ends (ConsistentAt d) (simulateConfig server (.list S))
      (fun _ con => ∀ a ∈ S, Clear a con) (fun _ => True) := by
  refine simulateConfig_after_drops server (fun _ _ => trivial) fun con hCon => ?_
  refine ((ends_forM (I := fun done con => SimulatedSoFar d done con ∧ ∀ a ∈ done, Clear a con)
    S ?_).fromState ⟨hCon, by simp⟩).post fun _ _ h => h.2
  intro pre ix post hSplit con' h
  have hIx := hS ix (by rw [hSplit]; simp)
  have hSim := simulateIndex_ends server hIx.dbname con' h.1
  have hClear := simulateIndex_clears server hIx.hypothetical hIx.dbname con' h
  revert hSim hClear
  cases simulateIndex server ix con' with
  | ok a t => exact fun hSim hClear => ⟨hSim, hClear⟩
  | error e t => exact fun _ _ => trivial

theorem costOf_clears (workload : List JString) (hS : ∀ ix ∈ S, Candidate d n ix) :
    Ends (ConsistentAt d) (costOf server workload (.list S))
      (fun _ con => ∀ a ∈ S, Clear a con) (fun _ => True) := by
  apply (simulateConfig_clears hS).seq
  apply ends_foldlM_const
  intro query _ cst
  apply Triple.bind (R := fun _ con => ∀ a ∈ S, Clear a con)
  · exact fun con h => h
  · exact fun t => ((unbox_keeps t).orElse fun _ _ => trivial).bind fun _ =>
      ends_pure fun _ h => h

/-- Once its cost is known, the members of a configuration are ready for use. -/
theorem costOf_readies (hPrices : AlwaysPrices server) (workload : List JString)
    (hS : ∀ ix ∈ S, Candidate d n ix) :
    Raises FromDatabase (Ready d n cand) (costOf server workload (.list S))
      (fun _ => Ready d n S) :=
  ((costOf_ready hPrices workload hS).join (costOf_clears workload hS)).weaken
    (fun _ h => ⟨h, h.consistent⟩)
    fun _ _ h => ⟨h.1.consistent, h.1.framed.refs, h.1.framed.below, h.2⟩

variable (hAccepts : AcceptsHypothetical server)
include hAccepts

/-- Everything registered is in the database, so dropping it cannot fail. -/
theorem drop_returns (hHyp : ix.hypothetical) :
    Maintains (fun _ => False) (ConsistentAt d) (ix.drop server) := by
  rintro con ⟨hCon, hName⟩
  rcases drop_cases server ix con with ⟨hRun, -⟩ | ⟨hRun, hMat, hSame⟩ | ⟨hRun, hMat, hSame, hWhy⟩
  · rw [hRun]
    exact ⟨hCon, hName⟩
  · rw [hRun]
    exact ⟨hCon.dropped hMat hSame.symm, hName⟩
  · rw [hRun]
    rcases hWhy with hFails | hAbsent
    · rw [hHyp, hAccepts.drops] at hFails
      cases hFails
    · exact hAbsent (hCon.ledger.listed ix hSame.symm hMat)

theorem simulateIndex_returns (hHyp : ix.hypothetical) :
    Raises (fun _ => False) (fun con => SimulatedSoFar d [] con ∧ Clear ix con)
      (simulateIndex server ix) (fun _ _ => True) := by
  rintro con ⟨⟨⟨hCon, -⟩, hAll, -⟩, hClear⟩
  unfold simulateIndex
  rw [if_pos hHyp, bind_run]
  rcases create_cases server ix con with ⟨hRun, -⟩ | ⟨hRun, -⟩ | ⟨hRun, -, -, hWhy⟩
  · rw [hRun]
    trivial
  · rw [hRun]
    trivial
  · exfalso
    rcases hWhy with hFails | ⟨e, he, hName⟩
    · rw [hHyp, hAccepts.creates] at hFails
      cases hFails
    · cases hReal : e.hypothetical with
      | false => exact hClear e he hReal hName
      | true =>
        have hPresent : ⟨e.name, true⟩ ∈ con.present := by
          rw [← hReal]
          exact he
        obtain ⟨iy, hMem, -⟩ := (hCon.inStep e.name).mp hPresent
        rw [hAll] at hMem
        cases hMem

/-- Simulating a single ready candidate does not fail. -/
theorem simulateConfig_returns (hIx : Candidate d n ix) (hMem : ix ∈ cand) :
    Raises (fun _ => False) (Ready d n cand) (simulateConfig server (.list [ix]))
      (fun _ _ => True) := by
  apply ends_get_bind
  intro start hStart
  have hMembers := hStart.consistent.1.ledger.members
  have hDrops : Maintains (fun _ => False) (ConsistentAt d)
      (forM start.curHypConfig (Index.drop server)) :=
    ends_forM_const _ fun iy hy => drop_returns hAccepts (hMembers iy hy).1
  have hLoop := ends_forM (I := DroppedSoFar d start.curHypConfig) start.curHypConfig
    fun pre iy post hSplit => drop_ends server
      ((hMembers iy (by rw [hSplit]; simp)).2.trans hStart.consistent.2)
  have hFrame : Keeps (Framed n cand) (forM start.curHypConfig (Index.drop server)) :=
    keeps_forM fun iy => drop_framed server iy
  refine bind (((hDrops.join hLoop).join hFrame).fromState
    ⟨⟨hStart.consistent, hStart.consistent, rfl, by simp⟩, hStart.framed⟩) fun _ => ?_
  refine bind (R := fun _ con => SimulatedSoFar d [] con ∧ Clear ix con)
    (ends_modify ?_) fun _ => ends_get_bind fun con hCon => ?_
  · rintro con ⟨⟨-, ⟨hCon, hName⟩, hAll, hDone⟩, hFramed⟩
    rw [← hAll] at hDone
    exact ⟨⟨⟨hCon.clear hDone, hName⟩, rfl, by simp⟩, hFramed.clear ix hMem⟩
  · show Raises _ _ (forM [ix] (simulateIndex server)) _
    have hOne := simulateIndex_returns (d := d) hAccepts hIx.hypothetical
    exact (hOne.fromState hCon).bind fun _ => ends_pure fun _ _ => trivial

theorem whatIf_returns (hPrices : AlwaysPrices server) (query : JString) (hIx : Candidate d n ix) (hMem : ix ∈ cand) :
    Raises (fun _ => False) (Ready d n cand) (whatIf server query (.list [ix]))
      (fun t con => t.isSome ∧ Ready d n cand con) := by
  have hWithin : (ConfigRef.list [ix]).Within d := forall_mem_singleton.mpr hIx.dbname
  have hRef : ∀ iy ∈ [ix], iy.ref < n := forall_mem_singleton.mpr hIx.ref
  have hFramed : Keeps (Framed n cand) (simulateConfig server (.list [ix])) :=
    simulateConfig_framed server hRef
  have hReady := ((simulateConfig_returns hAccepts hIx hMem).join
    (simulateConfig_keeps server (.list [ix]) hWithin)).join hFramed
  refine bind (hReady.weaken (fun _ h => ⟨⟨h, h.consistent⟩, h.framed⟩) fun _ _ h => ⟨h.1.2, h.2⟩)
    fun _ => execExplain_raises hPrices query ?_
  intro con h
  exact ⟨consistentAt_tick h.consistent, h.framed.refs, h.framed.below, h.framed.clear⟩

end Pricing

/-! ## Selecting two candidates or more -/

/-- The comparisons of a condition, each of which contributes a candidate. -/
def comparisons (nodes : List TExpression) : List TExpression :=
  nodes.filter fun lcexpr => isCompareCondition lcexpr.expressionType

/-- The columns a condition compares are written `table.column`. -/
def Qualified (nodes : List TExpression) : Prop :=
  ∀ lcexpr ∈ comparisons nodes, 2 ≤ (splitDots lcexpr.leftOperand).length

/-- The database the advisor makes its candidates for. -/
def advisorDb : JString := js "it_dellstore2".toList

/-- The candidates found so far, on a connection nothing has happened to. -/
structure Selecting (CI : List Index) (con : Connection) : Prop where
  ready : Ready advisorDb con.nextRef [] con
  candidates : ∀ ix ∈ CI, Candidate advisorDb con.nextRef ix

theorem elemAt_maintains {σ : Type} {P : σ → Prop} {xs : List α} {i : Nat}
    (hi : i < xs.length) : Maintains X P (elemAt xs i) := by
  intro s hs
  unfold elemAt
  rw [getElem?_eq_getElem hi]
  exact hs

theorem nonNull_returns {σ : Type} {P : σ → Prop} {x : Option α} {a : α} (hx : x = some a) :
    Raises X P (nonNull x) (fun b s => b = a ∧ P s) := by
  intro s hs
  rw [hx]
  exact ⟨rfl, hs⟩

theorem newIndex_selecting (tableName columnNames : JString) :
    Raises X (Selecting CI) (newIndex tableName columnNames advisorDb)
      (fun ix con => Selecting (CI ++ [ix]) con) := by
  intro con h
  obtain ⟨⟨hCon, hName⟩, -, hBelow, -⟩ := h.ready
  let ix := Index.new con.nextRef tableName columnNames true advisorDb
  have hNew : con.materialized ix = false := by
    cases hMat : con.materialized ix with
    | false => rfl
    | true =>
      have hMem : ix ∈ con.curHypConfig := by
        simpa using hCon.registered ix rfl hName.symm hMat
      exact absurd (hBelow ix hMem) (lt_irrefl _)
  have hSame : (({ con with nextRef := con.nextRef + 1 }.setName ix []).setMaterialized
      ix false) = { con.setName ix [] with nextRef := con.nextRef + 1 } := by
    unfold Connection.setMaterialized Connection.setName
    congr
    exact update_eq_self_iff.mpr hNew.symm
  have hNamed := hCon.setName hNew []
  show Selecting (CI ++ [ix]) _
  rw [hSame]
  refine ⟨⟨⟨⟨{ hNamed.ledger with }, hNamed.registered⟩, hName⟩, rfl, ?_, by simp⟩, ?_⟩
  · intro iy hy
    exact lt_succ_of_lt (hBelow iy hy)
  · refine forall_mem_concat (fun iy hy => ?_) ⟨rfl, rfl, lt_succ_self _⟩
    have hOld := h.candidates iy hy
    exact ⟨hOld.hypothetical, hOld.dbname, lt_succ_of_lt hOld.ref⟩

theorem exprVisit_selecting {lcexpr : TExpression}
    (hQualified : isCompareCondition lcexpr.expressionType →
      2 ≤ (splitDots lcexpr.leftOperand).length) :
    Raises X (Selecting CI) (exprVisit advisorDb CI lcexpr)
      (fun CI' con => Selecting CI' con ∧
        CI'.length = CI.length + (comparisons [lcexpr]).length) := by
  have hCount : (comparisons [lcexpr]).length =
      if isCompareCondition lcexpr.expressionType then 1 else 0 := by
    simp [comparisons, filter_cons, apply_ite length]
  rw [hCount]
  unfold exprVisit
  by_cases hCmp : isCompareCondition lcexpr.expressionType
  · have hLen := hQualified hCmp
    rw [if_pos hCmp, if_pos hCmp]
    apply (elemAt_maintains (by omega)).bind
    intro tableName
    apply (elemAt_maintains (by omega)).bind
    intro columnNames
    apply (newIndex_selecting tableName columnNames).bind
    exact fun ix => ends_pure fun con h => ⟨h, by simp⟩
  · rw [if_neg hCmp, if_neg hCmp]
    exact ends_pure fun con h => ⟨h, rfl⟩

/-- A parsed query yields one candidate for each comparison. -/
theorem extractIndexes_selecting {env : Environment} {nodes : List TExpression}
    (hParse : env.parse query = .condition nodes) (hQualified : Qualified nodes) :
    Raises X (Selecting []) (extractIndexes env query)
      (fun r con => ∃ Is, r = some Is ∧ Selecting Is con ∧
        Is.length = (comparisons nodes).length) := by
  unfold extractIndexes
  rw [hParse]
  refine bind ((ends_foldlM (I := fun done CI con =>
    Selecting CI con ∧ CI.length = (comparisons done).length) nodes [] ?_).pre
    fun con h => ⟨h, rfl⟩) fun CI => ends_pure fun con h => ⟨CI, rfl, h.1, h.2⟩
  intro pre lcexpr post CI hSplit con h
  have hOne : isCompareCondition lcexpr.expressionType →
      2 ≤ (splitDots lcexpr.leftOperand).length := by
    intro hCmp
    apply hQualified
    rw [hSplit]
    exact mem_filter.mpr ⟨by simp, hCmp⟩
  refine ((exprVisit_selecting hOne).weaken (fun _ h => h) ?_) con h.1
  rintro CI' con' ⟨hSel, hLen⟩
  refine ⟨hSel, ?_⟩
  rw [hLen, h.2]
  simp [comparisons]

variable {env : Environment} {n : Nat} {cand : List Index}

variable (hPrices : AlwaysPrices env.server)
include hPrices

variable (workload : List JString)

/-- The growing loop prices configurations and gives up in its first pass. -/
theorem greedyGrow_ready {S CIs : List Index} (cost : ℚ) (k fuel : Nat)
    (hS : ∀ ix ∈ S, Candidate advisorDb n ix) (hCIs : ∀ ix ∈ CIs, Candidate advisorDb n ix) :
    Raises FromDatabase (Ready advisorDb n S)
      (greedyGrow env workload CIs cost cost k fuel S)
      (fun S' con => S' = S ∧ Ready advisorDb n S con) := by
  rcases greedyGrow_eq env workload CIs S cost k fuel with hGrow | hGrow
  · rw [hGrow]
    exact ends_pure fun con h => ⟨rfl, h⟩
  · rw [hGrow]
    apply bind (R := fun _ => Ready advisorDb n S)
    · apply ends_foldlM_const (I := Ready advisorDb n S)
      intro I hI minI
      refine bind (costOf_ready hPrices workload ?_) fun _ =>
        ends_pure fun _ h => h
      exact forall_mem_concat hS (hCIs I hI)
    · exact fun _ => ends_pure fun con h => ⟨rfl, h⟩

/-- **`greedymk` returns a list when there are at least `m` candidates**, unless
the database raises an exception; the configuration is then ready for use. -/
theorem greedymk_ready {m : Nat} (k : Nat) (hm : m ≤ cand.length)
    (hCand : ∀ ix ∈ cand, Candidate advisorDb n ix) :
    Raises FromDatabase (Ready advisorDb n []) (greedymk env workload cand m k)
      (fun r con => ∃ S, r = some S ∧ Ready advisorDb n S con) := by
  intro con hCon
  unfold greedymk
  rw [bind_run_ok (subConfigs_run env con)]
  refine (bind (raises_mapM (V := fun (S : List Index)
    (e : ℚ × List Index) => e.2 = S ∧ ∀ ix ∈ S, ix ∈ cand) _ fun S hS => ?_) fun cost => ?_) con hCon
  · have hSub := (mem_subConfigList env hS).1.subset
    refine bind (costOf_ready hPrices workload ?_) fun _ =>
      ends_pure fun _ h => ⟨⟨rfl, fun _ hix => hSub hix⟩, h⟩
    exact fun ix hMem => hCand ix (hSub hMem)
  rintro con₁ ⟨hCost, hReady⟩
  rw [bind_run_ok (get_run con₁)]
  -- One cost for each sub-configuration, so the tree map has a first entry.
  have hPerm := env.mapOrder_perm con₁.clock cost
  have hEntries : env.mapOrder con₁.clock cost ≠ [] := by
    intro hNil
    rw [hNil] at hPerm
    rw [nil_perm.mp hPerm] at hCost
    obtain ⟨S, hS, -⟩ := exists_mem_subConfigList env con.clock
      (take_sublist m cand).subperm (length_take_of_le hm)
    exact ne_nil_of_mem hS (forall₂_nil_right_iff.mp hCost)
  obtain ⟨⟨c, S⟩, hMem, hFirst, -⟩ := firstEntry_cheapest hEntries
  have hS : ∀ ix ∈ S, Candidate advisorDb n ix := by
    obtain ⟨i, hi, hEq⟩ := getElem_of_mem (hPerm.mem_iff.mp hMem)
    have hLen := hCost.length_eq
    have hAt := hCost.get (by omega) hi
    simp only [get_eq_getElem, hEq] at hAt
    exact fun ix hix => hCand ix (hAt.2 ix (hAt.1 ▸ hix))
  rw [hFirst]
  refine (bind (costOf_readies hPrices workload hS) fun minCost => ?_) con₁ hReady
  refine bind (greedyGrow_ready hPrices workload minCost k k hS ?_) fun S' =>
    ends_pure fun con₂ h => ⟨S', rfl, h.1.symm ▸ h.2⟩
  exact fun ix hMem => hCand ix (mem_filter.mp hMem).1

/-- The query parses, and the columns its condition compares are qualified. -/
def Parsed (env : Environment) (query : JString) : Prop :=
  ∃ nodes, env.parse query = .condition nodes ∧ Qualified nodes

/-- How many columns the condition of a query compares. -/
def comparedColumns (env : Environment) (query : JString) : Nat :=
  match env.parse query with
  | .condition nodes => (comparisons nodes).length
  | _ => 0

/-- What `enumerate` returns: two different candidates, ready for use. -/
def PairOf (n : Nat) (CI cand : List Index) (con : Connection) : Prop :=
  Picked CI 2 cand ∧ Ready advisorDb n cand con

theorem enumerate_ready (hTwo : 2 ≤ CI.length)
    (hNodup : CI.Nodup) (hCand : ∀ ix ∈ CI, Candidate advisorDb n ix) :
    Raises FromDatabase (Ready advisorDb n []) (enumerate env 10 CI workload)
      (fun r con => ∃ S, r = some S ∧ PairOf n CI S con) := by
  refine ((greedymk_ready hPrices workload 10 hTwo hCand).join
    (greedymk_ends env workload hNodup 2 10)).weaken (fun con h => ⟨h, h.framed.refs⟩) ?_
  rintro r con ⟨⟨S, hS, hReady⟩, -, hPicked⟩
  exact ⟨S, hS, hPicked S hS, hReady⟩

/-- The members a query contributes to the selection. -/
def selectOne (env : Environment) (query : JString) : JavaM (List Index) := do
  let extracted ← extractIndexes env query
  let Is ← nonNull extracted
  let picked ← enumerate env 10 Is [query]
  nonNull picked

/-- A query that compares two columns contributes a pair of new candidates. -/
theorem selectOne_ready (hParsed : Parsed env query) (hTwo : 2 ≤ comparedColumns env query) :
    Raises FromDatabase (Ready advisorDb n []) (selectOne env query)
      (fun picked con => (Selecting picked con ∧ picked.length = 2) ∧
        n ≤ con.nextRef) := by
  obtain ⟨nodes, hParse, hQualified⟩ := hParsed
  have hCount : comparedColumns env query = (comparisons nodes).length := by
    unfold comparedColumns
    rw [hParse]
  have hExtract := ((extractIndexes_selecting (X := FromDatabase) hParse
    hQualified).join (extractIndexes_ends env query)).weaken
    (fun con (h : Ready advisorDb n [] con) =>
      ⟨⟨h.framed.refs.symm ▸ h, by simp⟩, h.framed.refs⟩)
    fun _ _ h => h
  apply hExtract.bind
  rintro extracted con ⟨⟨Is, hSome, hSel, hLen⟩, hMinted⟩
  obtain ⟨hLe, hNodup, -⟩ := hMinted Is hSome
  refine (bind (nonNull_returns (P := fun con' => con' = con) hSome) fun Is' => ?_) con rfl
  rintro con' ⟨rfl, rfl⟩
  refine (bind (enumerate_ready hPrices [query] (by omega) hNodup
    hSel.candidates) fun r => ?_) con' hSel.ready
  rintro con₂ ⟨S, hS, hPicked, hReady⟩
  rw [hS]
  have hRefs := hReady.framed.refs
  refine ⟨⟨⟨⟨hReady.consistent, rfl, ?_, by simp⟩, ?_⟩, hPicked.length⟩, by omega⟩
  · rw [hRefs]
    exact hReady.framed.below
  · rw [hRefs]
    exact fun ix hMem => hSel.candidates ix (hPicked.subset ix hMem)

/-- The selection keeps two candidates for each query of the workload. -/
theorem CISelection_ready {workload : List JString} (hParsed : ∀ query ∈ workload, Parsed env query)
    (hTwo : ∀ query ∈ workload, 2 ≤ comparedColumns env query) :
    Raises FromDatabase (Selecting []) (CISelection env workload)
      (fun CI con => Selecting CI con ∧ CI.length = 2 * workload.length) := by
  refine (ends_foldlM (I := fun done (CI : List Index) con =>
    Selecting CI con ∧ CI.length = 2 * done.length) workload [] ?_).pre
    fun con h => ⟨h, rfl⟩
  intro pre query post CI hSplit con hCI
  have hMem : query ∈ workload := by
    rw [hSplit]
    simp
  have hOne := (selectOne_ready (n := con.nextRef) hPrices (hParsed query hMem)
    (hTwo query hMem)).bind (f := fun picked => pure (CI ++ picked))
    (Q := fun CI' con' => Selecting CI' con' ∧ CI'.length = 2 * (pre ++ [query]).length)
    (fun picked => ends_pure fun con' h => ?_)
  · unfold selectOne at hOne
    simpa only [bind_assoc] using hOne con hCI.1.ready
  · obtain ⟨⟨hSel, hLen⟩, hLe⟩ := h
    refine ⟨⟨hSel.ready, ?_⟩, ?_⟩
    · intro ix hix
      rcases mem_append.mp hix with hOld | hNew
      · have hIx := hCI.1.candidates ix hOld
        exact ⟨hIx.hypothetical, hIx.dbname, by have := hIx.ref; omega⟩
      · exact hSel.candidates ix hNew
    · have hOld := hCI.2
      simp only [length_append, length_cons, length_nil]
      omega

end PgTuning.Advisor
