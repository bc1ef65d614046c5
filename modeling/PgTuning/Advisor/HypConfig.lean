import PgTuning.Advisor.Connection

/-!
# `curHypConfig` and the advisor database

The advisor never asks the server which hypothetical indexes exist; it relies on `curHypConfig` and
on the `materialized` flags. `InStep` says when the two are in step. Behind it is an invariant of
two halves, followed through every what-if operation to its normal and its exceptional end.

`Ledger` says that the flags tell the truth about the database; `create` and `drop` keep it whatever
the server does, because the flag changes only after the statement succeeded. `Registered` says that
a materialized hypothetical index is a member of `curHypConfig`. `simulateConfig` keeps it, since it
registers an index right after creating it. `costOfCreating` does not register its probe index: it
relies on its own final `DROP`, and when that fails the probe stays behind.
-/

namespace PgTuning.Advisor

open PgTuning.Lib PgTuning.Lib.Attempt List Function Bool

/-! ## The invariant -/

/-- The hypothetical indexes present are the materialized members of
`curHypConfig`, by name. -/
def InStep (con : Connection) : Prop :=
  ∀ n, ⟨n, true⟩ ∈ con.present ↔
    ∃ ix ∈ con.curHypConfig, con.materialized ix = true ∧ con.name ix = n

/-- The `materialized` flags and the names agree with the database. -/
structure Ledger (con : Connection) : Prop where
  members : ∀ ix ∈ con.curHypConfig,
    ix.hypothetical = true ∧ ix.dbname = con.dbName
  listed : ∀ ix, ix.dbname = con.dbName → con.materialized ix = true →
    ⟨con.name ix, ix.hypothetical⟩ ∈ con.present
  backed : ∀ n, ⟨n, true⟩ ∈ con.present →
    ∃ ix, ix.hypothetical = true ∧ ix.dbname = con.dbName ∧
      con.materialized ix = true ∧ con.name ix = n
  distinct : ∀ ix iy, ix.dbname = con.dbName → iy.dbname = con.dbName →
    con.materialized ix = true → con.materialized iy = true →
    con.name ix = con.name iy → ix = iy

/-- Every materialized hypothetical index outside `except` is registered. -/
def RegisteredBut (except : Index → Prop) (con : Connection) : Prop :=
  ∀ ix, ix.hypothetical = true → ix.dbname = con.dbName →
    con.materialized ix = true → ix ∈ con.curHypConfig ∨ except ix

def Registered (con : Connection) : Prop := RegisteredBut (fun _ => False) con

/-- The invariant of the advisor between two calls. -/
structure Consistent (con : Connection) : Prop where
  ledger : Ledger con
  registered : Registered con

/-- The state after the connection has been opened: what was loaded into
`curHypConfig` is what the database holds, and no other object of this database
is materialized yet. -/
structure Opened (con : Connection) : Prop where
  members : ∀ ix ∈ con.curHypConfig,
    ix.hypothetical = true ∧ ix.dbname = con.dbName
  loaded : ∀ ix, ix.dbname = con.dbName →
    (con.materialized ix = true ↔ ix ∈ con.curHypConfig)
  names : ∀ n, ⟨n, true⟩ ∈ con.present ↔ ∃ ix ∈ con.curHypConfig, con.name ix = n
  distinct : ∀ ix ∈ con.curHypConfig, ∀ iy ∈ con.curHypConfig,
    con.name ix = con.name iy → ix = iy

variable {con : Connection} {ix iy : Index} {d : JString} {done : List Index}

theorem Opened.consistent (h : Opened con) : Consistent con := by
  refine ⟨⟨h.members, ?_, ?_, ?_⟩, ?_⟩
  · intro ix hDb hMat
    have hMem := (h.loaded ix hDb).mp hMat
    rw [(h.members ix hMem).1]
    exact (h.names _).mpr ⟨ix, hMem, rfl⟩
  · intro n hn
    obtain ⟨ix, hMem, hName⟩ := (h.names n).mp hn
    obtain ⟨hHyp, hDb⟩ := h.members ix hMem
    exact ⟨ix, hHyp, hDb, (h.loaded ix hDb).mpr hMem, hName⟩
  · intro ix iy hDb hDb' hMat hMat' hName
    exact h.distinct ix ((h.loaded ix hDb).mp hMat) iy ((h.loaded iy hDb').mp hMat') hName
  · intro ix _ hDb hMat
    exact Or.inl ((h.loaded ix hDb).mp hMat)

theorem Consistent.inStep (h : Consistent con) : InStep con := by
  intro n
  constructor
  · intro hn
    obtain ⟨ix, hHyp, hDb, hMat, hName⟩ := h.ledger.backed n hn
    have hMem : ix ∈ con.curHypConfig := by
      simpa using h.registered ix hHyp hDb hMat
    exact ⟨ix, hMem, hMat, hName⟩
  · rintro ⟨ix, hMem, hMat, hName⟩
    obtain ⟨hHyp, hDb⟩ := h.ledger.members ix hMem
    have hListed := h.ledger.listed ix hDb hMat
    rw [hHyp, hName] at hListed
    exact hListed

/-! ## What `drop` and `create` can do -/

def dropped (con : Connection) (ix : Index) : Connection :=
  (con.tick.removeIndex ⟨con.name ix, ix.hypothetical⟩).setMaterialized ix false

def created (con : Connection) (ix : Index) : Connection :=
  ((con.setName ix (ix.nameFor con)).tick.addIndex
    ⟨ix.nameFor con, ix.hypothetical⟩).setMaterialized ix true

variable (server : Server) {configuration : ConfigRef} {E : Connection → Prop}

theorem drop_cases (ix : Index) (con : Connection) :
    (ix.drop server con = .ok () con ∧
        (con.materialized ix = false ∨ con.dbName ≠ ix.dbname)) ∨
      (ix.drop server con = .ok () (dropped con ix) ∧
        con.materialized ix ∧ con.dbName = ix.dbname) ∨
      (ix.drop server con = .error .sql con.tick ∧
        con.materialized ix ∧ con.dbName = ix.dbname ∧
        (server.fails (Stmt.dropIndex ix.hypothetical (con.name ix)).sql con ∨
          ⟨con.name ix, ix.hypothetical⟩ ∉ con.present)) := by
  unfold Index.drop
  rw [bind_run_ok (get_run con)]
  by_cases hMat : con.materialized ix = false
  · exact Or.inl ⟨by rw [if_pos hMat, pure_run], Or.inl hMat⟩
  have hMat' : con.materialized ix := by simpa using hMat
  by_cases hDb : con.dbName = ix.dbname
  · rw [if_neg hMat, if_pos hDb, bind_run]
    unfold execStmt
    by_cases hFails : server.fails (Stmt.dropIndex ix.hypothetical (con.name ix)).sql con
    · refine Or.inr (Or.inr ⟨?_, hMat', hDb, Or.inl hFails⟩)
      simp only [hFails, if_true]
    · by_cases hMem : ⟨con.name ix, ix.hypothetical⟩ ∈ con.present
      · refine Or.inr (Or.inl ⟨?_, hMat', hDb⟩)
        simp only [hFails, hMem, if_true, if_false, modify_run, dropped, false_eq_true]
      · refine Or.inr (Or.inr ⟨?_, hMat', hDb, Or.inr hMem⟩)
        simp only [hFails, hMem, if_false, false_eq_true]
  · exact Or.inl ⟨by rw [if_neg hMat, if_neg hDb, pure_run], Or.inr hDb⟩

/-- Every way a `create` can end. The object keeps its new name even when the
statement fails. -/
theorem create_cases (ix : Index) (con : Connection) :
    (ix.create server con = .ok () con ∧
        (con.materialized ix ∨ con.dbName ≠ ix.dbname)) ∨
      (ix.create server con = .ok () (created con ix) ∧
        con.materialized ix = false ∧ con.dbName = ix.dbname ∧
        ∀ e ∈ con.present, e.name ≠ ix.nameFor con) ∨
      (ix.create server con = .error .sql (con.setName ix (ix.nameFor con)).tick ∧
        con.materialized ix = false ∧ con.dbName = ix.dbname ∧
        (server.fails (Stmt.createIndex ix.hypothetical (ix.nameFor con)
            ix.tableName ix.getColumnNames).sql
            (con.setName ix (ix.nameFor con)) ∨
          ∃ e ∈ con.present, e.name = ix.nameFor con)) := by
  unfold Index.create
  rw [bind_run_ok (get_run con)]
  by_cases hMat : con.materialized ix
  · exact Or.inl ⟨by rw [if_pos hMat, pure_run], Or.inl hMat⟩
  have hMat' : con.materialized ix = false := by simpa using hMat
  by_cases hDb : con.dbName = ix.dbname
  · rw [if_neg hMat, if_pos hDb, bind_run_ok (modify_run _ con), bind_run]
    unfold execStmt
    by_cases hFails : server.fails (Stmt.createIndex ix.hypothetical
        (ix.nameFor con) ix.tableName ix.getColumnNames).sql
        (con.setName ix (ix.nameFor con))
    · refine Or.inr (Or.inr ⟨?_, hMat', hDb, Or.inl hFails⟩)
      simp only [hFails, if_true]
    · by_cases hTaken : con.present.any (·.name == ix.nameFor con)
      · refine Or.inr (Or.inr ⟨?_, hMat', hDb, Or.inr ?_⟩)
        · simp only [hFails, Connection.setName_present, hTaken, if_true, if_false, false_eq_true]
        · obtain ⟨e, he, hName⟩ := any_eq_true.mp hTaken
          exact ⟨e, he, by simpa using hName⟩
      · refine Or.inr (Or.inl ⟨?_, hMat', hDb, ?_⟩)
        · simp only [hFails, Connection.setName_present, hTaken, if_false, modify_run,
            created, false_eq_true]
        · intro e he hName
          exact hTaken (any_eq_true.mpr ⟨e, he, by simpa using hName⟩)
  · exact Or.inl ⟨by rw [if_neg hMat, if_neg hDb, pure_run], Or.inr hDb⟩

section Steps

variable {server : Server} {ix : Index} {P : Connection → Prop}

theorem keeps_drop (hDropped : ∀ con, P con → P (dropped con ix))
    (hTick : ∀ con, P con → P con.tick) : Keeps P (ix.drop server) := by
  intro con h
  rcases drop_cases server ix con with ⟨hRun, -⟩ | ⟨hRun, -⟩ | ⟨hRun, -⟩ <;> rw [hRun]
  · exact h
  · exact hDropped con h
  · exact hTick con h

theorem keeps_create (hCreated : ∀ con, P con → P (created con ix))
    (hNamed : ∀ con, P con → P (con.setName ix (ix.nameFor con)).tick) :
    Keeps P (ix.create server) := by
  intro con h
  rcases create_cases server ix con with ⟨hRun, -⟩ | ⟨hRun, -⟩ | ⟨hRun, -⟩ <;> rw [hRun]
  · exact h
  · exact hCreated con h
  · exact hNamed con h

theorem keeps_simulateIndex (hCreate : ix.hypothetical → Keeps P (ix.create server))
    (hAdd : ∀ con, P con → P { con with curHypConfig := con.curHypConfig ++ [ix] }) :
    Keeps P (simulateIndex server ix) := by
  unfold simulateIndex
  split_ifs with hHyp
  · exact (hCreate hHyp).seq (keeps_modify hAdd)
  · exact keeps_pure _

theorem keeps_simulateConfig (hDrop : ∀ ix : Index, Keeps P (ix.drop server))
    (hClear : ∀ con, P con → P { con with curHypConfig := [] }) {S : List Index}
    (hSimulate : ∀ ix ∈ S, Keeps P (simulateIndex server ix)) :
    Keeps P (simulateConfig server (.list S)) := by
  apply keeps_get.bind
  intro con
  apply (keeps_forM hDrop).seq
  apply Keeps.seq (keeps_modify hClear)
  apply keeps_get.bind
  intro con
  exact ends_forM_const S hSimulate

theorem keeps_costOf (hTick : ∀ con, P con → P con.tick) {configuration : ConfigRef}
    (hSimulate : Keeps P (simulateConfig server configuration)) (workload : List JString) :
    Keeps P (costOf server workload configuration) := by
  apply hSimulate.seq
  apply keeps_foldlM
  intro cst query
  apply Keeps.bind (fun con h => hTick con h)
  exact fun t => (unbox_keeps t).bind fun _ => keeps_pure _

theorem keeps_costOfCreating (hTick : ∀ con, P con → P con.tick)
    (hCreate : Keeps P (ix.create server)) (hDrop : Keeps P (ix.drop server)) :
    Keeps P (costOfCreating server ix) := by
  apply Keeps.bind (fun con h => hTick con h)
  intro pre
  apply hCreate.seq
  apply Keeps.bind (fun con h => hTick con h)
  intro post
  apply hDrop.seq
  exact (unbox_keeps pre).bind fun _ => (unbox_keeps post).bind fun _ => keeps_pure _

end Steps

/-! ## The ledger under single statements -/

theorem Ledger.tick (h : Ledger con) : Ledger con.tick :=
  { h with }

theorem Consistent.tick (h : Consistent con) : Consistent con.tick :=
  ⟨h.ledger.tick, h.registered⟩

/-- Renaming an object that is not materialized changes nothing the database
knows about. -/
theorem Ledger.setName (h : Ledger con) (hMat : con.materialized ix = false) (n : JString) :
    Ledger (con.setName ix n) := by
  have hOther : ∀ iy, con.materialized iy →
      (con.setName ix n).name iy = con.name iy := by
    intro iy hy
    have hNe : iy ≠ ix := by
      rintro rfl
      rw [hMat] at hy
      cases hy
    exact update_of_ne hNe _ _
  refine ⟨h.members, ?_, ?_, ?_⟩
  · intro iy hDb hy
    rw [hOther iy hy]
    exact h.listed iy hDb hy
  · intro m hm
    obtain ⟨iy, hHyp, hDb, hy, hName⟩ := h.backed m hm
    exact ⟨iy, hHyp, hDb, hy, by rw [hOther iy hy]; exact hName⟩
  · intro iy iz hDb hDb' hy hz hName
    rw [hOther iy hy, hOther iz hz] at hName
    exact h.distinct iy iz hDb hDb' hy hz hName

theorem Consistent.setName (h : Consistent con) (hMat : con.materialized ix = false)
    (n : JString) : Consistent (con.setName ix n) :=
  ⟨h.ledger.setName hMat n, h.registered⟩

theorem dropped_materialized (h : (dropped con ix).materialized iy) :
    iy ≠ ix ∧ con.materialized iy := by
  by_cases hEq : iy = ix
  · subst hEq
    simp [dropped] at h
  · refine ⟨hEq, ?_⟩
    simpa [dropped, update_of_ne hEq] using h

theorem Ledger.dropped (h : Ledger con) (hMat : con.materialized ix)
    (hDb : ix.dbname = con.dbName) : Ledger (dropped con ix) := by
  refine ⟨h.members, ?_, ?_, ?_⟩
  · intro iy hDb' hy
    obtain ⟨hNe, hy⟩ := dropped_materialized hy
    have hListed := h.listed iy hDb' hy
    have hKept : (⟨con.name iy, iy.hypothetical⟩ : DbIndex) ≠
        ⟨con.name ix, ix.hypothetical⟩ := by
      intro hEq
      exact hNe (h.distinct iy ix hDb' hDb hy hMat (congrArg DbIndex.name hEq))
    exact mem_filter.mpr ⟨hListed, decide_eq_true hKept⟩
  · intro n hn
    obtain ⟨hn, hKept⟩ := mem_filter.mp (show _ ∈ con.present.filter _ from hn)
    obtain ⟨iy, hHyp, hDb', hy, hName⟩ := h.backed n hn
    have hNe : iy ≠ ix := by
      rintro rfl
      rw [hHyp, hName] at hKept
      simp at hKept
    exact ⟨iy, hHyp, hDb', by simp [Advisor.dropped, update_of_ne hNe, hy], hName⟩
  · intro iy iz hDb' hDb'' hy hz hName
    exact h.distinct iy iz hDb' hDb'' (dropped_materialized hy).2 (dropped_materialized hz).2 hName

theorem Consistent.dropped (h : Consistent con) (hMat : con.materialized ix)
    (hDb : ix.dbname = con.dbName) : Consistent (dropped con ix) := by
  refine ⟨h.ledger.dropped hMat hDb, ?_⟩
  intro iy hHyp hDb' hy
  exact h.registered iy hHyp hDb' (dropped_materialized hy).2

theorem created_self (con : Connection) (ix : Index) :
    (created con ix).name ix = ix.nameFor con ∧ (created con ix).materialized ix := by
  simp [created]

theorem created_of_ne (con : Connection) (h : iy ≠ ix) :
    (created con ix).name iy = con.name iy ∧
      (created con ix).materialized iy = con.materialized iy := by
  simp [created, update_of_ne h]

theorem Ledger.created (h : Ledger con) (hMat : con.materialized ix = false)
    (hDb : ix.dbname = con.dbName) (hFree : ∀ e ∈ con.present, e.name ≠ ix.nameFor con) :
    Ledger (created con ix) := by
  have hOld : ∀ iy, iy.dbname = con.dbName → con.materialized iy →
      con.name iy ≠ ix.nameFor con := fun iy hDb' hy => hFree _ (h.listed iy hDb' hy)
  refine ⟨h.members, ?_, ?_, ?_⟩
  · intro iy hDb' hy
    by_cases hEq : iy = ix
    · subst hEq
      rw [(created_self con iy).1]
      exact mem_cons_self
    · rw [(created_of_ne con hEq).1]
      rw [(created_of_ne con hEq).2] at hy
      exact mem_cons_of_mem _ (h.listed iy hDb' hy)
  · intro n hn
    rcases mem_cons.mp (show _ ∈ _ :: con.present from hn) with hNew | hOld
    · injection hNew with hName hHyp
      exact ⟨ix, hHyp.symm, hDb, (created_self con ix).2, (created_self con ix).1.trans hName.symm⟩
    · obtain ⟨iy, hHyp, hDb', hy, hName⟩ := h.backed n hOld
      have hNe : iy ≠ ix := by
        rintro rfl
        rw [hMat] at hy
        cases hy
      obtain ⟨hSameName, hSame⟩ := created_of_ne con hNe
      exact ⟨iy, hHyp, hDb', hSame.trans hy, hSameName.trans hName⟩
  · intro iy iz hDb' hDb'' hy hz hName
    by_cases hEq : iy = ix
    · by_cases hEq' : iz = ix
      · rw [hEq, hEq']
      · rw [(created_of_ne con hEq').2] at hz
        rw [hEq, (created_self con ix).1, (created_of_ne con hEq').1] at hName
        exact absurd hName.symm (hOld iz hDb'' hz)
    · rw [(created_of_ne con hEq).2] at hy
      rw [(created_of_ne con hEq).1] at hName
      by_cases hEq' : iz = ix
      · rw [hEq', (created_self con ix).1] at hName
        exact absurd hName (hOld iy hDb' hy)
      · rw [(created_of_ne con hEq').2] at hz
        rw [(created_of_ne con hEq').1] at hName
        exact h.distinct iy iz hDb' hDb'' hy hz hName

theorem Registered.but (h : Registered con) (except : Index → Prop) : RegisteredBut except con :=
  fun ix hHyp hDb hMat => (h ix hHyp hDb hMat).imp_right False.elim

/-- A freshly created index is the only one that may be unregistered. -/
theorem Consistent.registered_created (h : Consistent con) (ix : Index) :
    RegisteredBut (· = ix) (created con ix) := by
  intro iy hHyp hDb hy
  by_cases hEq : iy = ix
  · exact Or.inr hEq
  · rw [(created_of_ne con hEq).2] at hy
    exact h.registered.but (· = ix) iy hHyp hDb hy

/-- Adding an index of this database to `curHypConfig` registers it. -/
theorem Ledger.register (h : Ledger con) (hHyp : ix.hypothetical)
    (hDb : ix.dbname = con.dbName) (hReg : RegisteredBut (· = ix) con) :
    Consistent { con with curHypConfig := con.curHypConfig ++ [ix] } := by
  refine ⟨⟨?_, h.listed, h.backed, h.distinct⟩, ?_⟩
  · exact forall_mem_concat h.members ⟨hHyp, hDb⟩
  · intro iy hHyp' hDb' hy
    refine Or.inl (mem_append.mpr ?_)
    rcases hReg iy hHyp' hDb' hy with hMem | hEq
    · exact Or.inl hMem
    · exact Or.inr (mem_singleton.mpr hEq)

/-! ## `simulateConfig` -/

/-- The invariant of a connection to the database `d`. -/
def ConsistentAt (d : JString) (con : Connection) : Prop :=
  Consistent con ∧ con.dbName = d

/-- The first loop: `done` has been dropped, `curHypConfig` is still `all`. -/
def DroppedSoFar (d : JString) (all done : List Index) (con : Connection) :
    Prop :=
  ConsistentAt d con ∧ con.curHypConfig = all ∧
    ∀ ix ∈ done, con.materialized ix = false

theorem drop_ends {all : List Index} (hDb : ix.dbname = d) :
    Ends (DroppedSoFar d all done) (ix.drop server)
      (fun _ => DroppedSoFar d all (done ++ [ix])) (ConsistentAt d) := by
  rintro con ⟨⟨hCon, hName⟩, hAll, hDone⟩
  rcases drop_cases server ix con with ⟨hRun, hWhy⟩ | ⟨hRun, hMat, hSame⟩ | ⟨hRun, -⟩
  · rw [hRun]
    have hMat := hWhy.resolve_right (not_not.mpr (hName.trans hDb.symm))
    exact ⟨⟨hCon, hName⟩, hAll, forall_mem_concat hDone hMat⟩
  · rw [hRun]
    refine ⟨⟨hCon.dropped hMat hSame.symm, hName⟩, hAll, forall_mem_concat ?_ (by simp [dropped])⟩
    intro iy hMem
    by_contra hy
    have hy' := (dropped_materialized (by simpa using hy)).2
    rw [hDone iy hMem] at hy'
    cases hy'
  · rw [hRun]
    exact ⟨hCon.tick, hName⟩

/-- Once everything registered has been dropped, the list may be cleared. -/
theorem Consistent.clear (h : Consistent con)
    (hDropped : ∀ ix ∈ con.curHypConfig, con.materialized ix = false) :
    Consistent { con with curHypConfig := [] } := by
  refine ⟨⟨by simp, h.ledger.listed, h.ledger.backed, h.ledger.distinct⟩, ?_⟩
  intro ix hHyp hDb hMat
  have hMem : ix ∈ con.curHypConfig := by simpa using h.registered ix hHyp hDb hMat
  rw [hDropped ix hMem] at hMat
  cases hMat

/-- The second loop: the hypothetical members of `done` are registered and
materialized, and nothing else is. -/
def SimulatedSoFar (d : JString) (done : List Index) (con : Connection) : Prop :=
  ConsistentAt d con ∧ con.curHypConfig = done.filter (·.hypothetical) ∧
    ∀ ix ∈ con.curHypConfig, con.materialized ix = true

theorem simulated_register (hLedger : Ledger con) (hName : con.dbName = d) (hHyp : ix.hypothetical)
    (hDb : ix.dbname = d) (hReg : RegisteredBut (· = ix) con)
    (hAll : con.curHypConfig = done.filter (·.hypothetical))
    (hMat : ∀ iy ∈ con.curHypConfig, con.materialized iy) (hIx : con.materialized ix) :
    SimulatedSoFar d (done ++ [ix])
      { con with curHypConfig := con.curHypConfig ++ [ix] } := by
  refine ⟨⟨hLedger.register hHyp (hDb.trans hName.symm) hReg, hName⟩, ?_, ?_⟩
  · rw [filter_append, filter_cons_of_pos hHyp, filter_nil, ← hAll]
  · exact forall_mem_concat hMat hIx

theorem simulateIndex_ends (hDb : ix.dbname = d) :
    Ends (SimulatedSoFar d done) (simulateIndex server ix)
      (fun _ => SimulatedSoFar d (done ++ [ix])) (ConsistentAt d) := by
  rintro con ⟨⟨hCon, hName⟩, hAll, hMat⟩
  unfold simulateIndex
  split_ifs with hHyp
  · rw [bind_run]
    rcases create_cases server ix con with ⟨hRun, hWhy⟩ |
      ⟨hRun, hNot, hSame, hFree⟩ | ⟨hRun, hNot, -⟩
    · rw [hRun]
      have hIx := hWhy.resolve_right (not_not.mpr (hName.trans hDb.symm))
      exact simulated_register hCon.ledger hName hHyp hDb (hCon.registered.but _) hAll hMat hIx
    · rw [hRun]
      have hLedger := hCon.ledger.created hNot hSame.symm hFree
      refine simulated_register hLedger hName hHyp hDb
        (hCon.registered_created ix) hAll ?_ (created_self con ix).2
      intro iy hMem
      by_cases hEq : iy = ix
      · rw [hEq]
        exact (created_self con ix).2
      · exact (created_of_ne con hEq).2.trans (hMat iy hMem)
    · rw [hRun]
      exact ⟨(hCon.setName hNot _).tick, hName⟩
  · refine ⟨⟨hCon, hName⟩, ?_, hMat⟩
    rw [filter_append, filter_cons_of_neg hHyp, filter_nil, append_nil]
    exact hAll

/-- All members of the configuration belong to the database `d`. -/
def ConfigRef.Within (d : JString) : ConfigRef → Prop
  | .list ixs => ∀ ix ∈ ixs, ix.dbname = d
  | .curHypConfig => True

/-- `simulateConfig` up to its second loop: everything registered has been
dropped, and the list is empty. -/
theorem simulateConfig_after_drops {Q : Unit → Connection → Prop}
    (hE : ∀ con, ConsistentAt d con → E con) (hRest : ∀ con, SimulatedSoFar d [] con →
      Ends (fun con' => con' = con) (forM (configuration.read con) (simulateIndex server)) Q E) :
    Ends (ConsistentAt d) (simulateConfig server configuration) Q E := by
  refine ends_get_bind fun start hStart => ?_
  refine Triple.bind (R := fun _ => DroppedSoFar d start.curHypConfig
    start.curHypConfig) ?_ fun _ => ?_
  · refine (ends_forM (I := DroppedSoFar d start.curHypConfig) start.curHypConfig
      fun pre ix post hSplit => (drop_ends server ?_).orElse hE).fromState ⟨hStart, rfl, by simp⟩
    rw [← hStart.2]
    exact (hStart.1.ledger.members ix (by rw [hSplit]; simp)).2
  · refine Triple.bind (ends_modify ?_) fun _ =>
      ends_get_bind hRest
    rintro con ⟨⟨hCon, hName⟩, hAll, hDone⟩
    rw [← hAll] at hDone
    exact ⟨⟨hCon.clear hDone, hName⟩, rfl, by simp⟩

/-- **`simulateConfig` keeps the invariant at both ends**, and at its normal end
exactly the hypothetical members of the configuration are registered. -/
theorem simulateConfig_ends (configuration : ConfigRef) (hWithin : configuration.Within d) :
    Ends (ConsistentAt d) (simulateConfig server configuration)
      (fun _ con => SimulatedSoFar d (configuration.read con) con)
      (ConsistentAt d) := by
  refine simulateConfig_after_drops server (fun _ h => h) fun con hCon => ?_
  cases configuration with
  | list ixs =>
    exact (ends_forM ixs fun pre ix post hSplit =>
      simulateIndex_ends server (hWithin ix (by rw [hSplit]; simp))).fromState hCon
  | curHypConfig =>
    -- The alias was emptied by the clear, so this loop makes no pass.
    have hEmpty : con.curHypConfig = [] := hCon.2.1
    show Ends _ (forM con.curHypConfig _) _ _
    rw [hEmpty]
    refine ends_pure fun con' hEq => ?_
    rw [hEq]
    show SimulatedSoFar d con.curHypConfig con
    rw [hEmpty]
    exact hCon

/-! ## The remaining operations -/

theorem execExplain_ends {P : Connection → Prop} (hTick : ∀ con, P con → P con.tick)
    (query : JString) : Ends P (execExplain server query) (fun _ => P) E :=
  fun con hP => hTick con hP

theorem simulateConfig_keeps (configuration : ConfigRef) (hWithin : configuration.Within d) :
    Keeps (ConsistentAt d) (simulateConfig server configuration) :=
  (simulateConfig_ends server configuration hWithin).post fun _ _ h => h.1

theorem consistentAt_tick (h : ConsistentAt d con) : ConsistentAt d con.tick :=
  ⟨h.1.tick, h.2⟩

theorem whatIf_keeps (query : JString) (configuration : ConfigRef)
    (hWithin : configuration.Within d) :
    Keeps (ConsistentAt d) (whatIf server query configuration) :=
  (simulateConfig_keeps server configuration hWithin).bind fun _ =>
    execExplain_ends server (P := ConsistentAt d) (fun _ => consistentAt_tick) query

theorem costOf_keeps (workload : List JString)
    (configuration : ConfigRef) (hWithin : configuration.Within d) :
    Keeps (ConsistentAt d) (costOf server workload configuration) :=
  keeps_costOf (P := ConsistentAt d) (fun _ => consistentAt_tick)
    (simulateConfig_keeps server configuration hWithin) workload

/-- The server never refuses to drop a hypothetical index that is not a member of `curHypConfig`;
the only such `DROP` is the one with which `costOfCreating` takes its probe index away again. -/
def ProbeDropsSucceed (server : Server) : Prop :=
  ∀ (con : Connection) (ix : Index), ix.hypothetical = true →
    ix ∉ con.curHypConfig →
    server.fails (Stmt.dropIndex ix.hypothetical (con.name ix)).sql con = false

/-- Between the `CREATE` and the `DROP` of `costOfCreating`. -/
def Probing (d : JString) (ix : Index) (con : Connection) : Prop :=
  Ledger con ∧ RegisteredBut (· = ix) con ∧ con.dbName = d

theorem probe_create_ends (ix : Index) :
    Ends (ConsistentAt d) (ix.create server) (fun _ => Probing d ix) (ConsistentAt d) := by
  rintro con ⟨hCon, hName⟩
  rcases create_cases server ix con with ⟨hRun, -⟩ | ⟨hRun, hNot, hSame, hFree⟩ | ⟨hRun, hNot, -⟩
  · rw [hRun]
    exact ⟨hCon.ledger, hCon.registered.but _, hName⟩
  · rw [hRun]
    exact ⟨hCon.ledger.created hNot hSame.symm hFree, hCon.registered_created ix, hName⟩
  · rw [hRun]
    exact ⟨(hCon.setName hNot _).tick, hName⟩

section

variable (hServer : ProbeDropsSucceed server)
include hServer

theorem probe_drop_ends (hDb : ix.dbname = d) :
    Ends (Probing d ix) (ix.drop server) (fun _ => ConsistentAt d) (ConsistentAt d) := by
  rintro con ⟨hLedger, hReg, hName⟩
  rcases drop_cases server ix con with ⟨hRun, hWhy⟩ | ⟨hRun, hMat, hSame⟩ |
    ⟨hRun, hMat, hSame, hWhy⟩
  · rw [hRun]
    refine ⟨⟨hLedger, fun iy hHyp hDb' hy => ?_⟩, hName⟩
    rcases hReg iy hHyp hDb' hy with hMem | hEq
    · exact Or.inl hMem
    · rw [hEq, hWhy.resolve_right (not_not.mpr (hName.trans hDb.symm))] at hy
      cases hy
  · rw [hRun]
    refine ⟨⟨hLedger.dropped hMat hSame.symm, fun iy hHyp hDb' hy => ?_⟩, hName⟩
    obtain ⟨hNe, hy⟩ := dropped_materialized hy
    exact (hReg iy hHyp hDb' hy).imp id fun hEq => hNe hEq
  · rw [hRun]
    refine ⟨⟨hLedger.tick, fun iy hHyp hDb' hy => ?_⟩, hName⟩
    rcases hReg iy hHyp hDb' hy with hMem | hEq
    · exact Or.inl hMem
    · -- The refused `DROP` concerned a registered index after all.
      by_contra hNot
      have hOut : ix ∉ con.curHypConfig := by
        intro hMem
        exact hNot (Or.inl (hEq ▸ hMem))
      rcases hWhy with hFails | hAbsent
      · rw [hServer con ix (hEq ▸ hHyp) hOut] at hFails
        cases hFails
      · exact hAbsent (hLedger.listed ix hSame.symm hMat)

theorem costOfCreating_keeps (hDb : ix.dbname = d) :
    Keeps (ConsistentAt d) (costOfCreating server ix) := by
  refine (execExplain_ends server (P := ConsistentAt d)
    (fun _ => consistentAt_tick) _).bind fun pre => ?_
  refine (probe_create_ends server ix).bind fun _ => ?_
  refine (execExplain_ends server (fun con h => ⟨h.1.tick, h.2⟩) _).bind fun post => ?_
  refine (probe_drop_ends server hServer hDb).bind fun _ => ?_
  exact (unbox_keeps pre).bind fun _ => (unbox_keeps post).bind fun _ => keeps_pure _

theorem changeConfig_keeps
    (cur : List Index) {target : List Index} (hTarget : ∀ ix ∈ target, ix.dbname = d) :
    Keeps (ConsistentAt d) (changeConfig server cur target) := by
  have hCommon : (ConfigRef.list (commonInd cur target)).Within d :=
    fun ix h => hTarget ix (mem_of_mem_commonInd h)
  refine (simulateConfig_keeps server _ hCommon).bind fun _ => ?_
  refine ends_foldlM_const _ 0 fun ix hMem cost => ?_
  have hDb := hTarget ix (mem_filter.mp hMem).1
  exact (costOfCreating_keeps server hServer hDb).bind fun _ =>
    ends_pure fun _ h => h

end

/-! ## Runs -/

inductive Call where
  | whatIf (query : JString) (configuration : ConfigRef)
  | costOf (workload : List JString) (configuration : ConfigRef)
  | simulateConfig (configuration : ConfigRef)
  | changeConfig (cur target : List Index)
  | costOfCreating (index : Index)

def Call.after (server : Server) (con : Connection) : Call → Connection
  | .whatIf query configuration =>
    finalState (Advisor.whatIf server query configuration) con
  | .costOf workload configuration =>
    finalState (Advisor.costOf server workload configuration) con
  | .simulateConfig configuration =>
    finalState (Advisor.simulateConfig server configuration) con
  | .changeConfig cur target =>
    finalState (Advisor.changeConfig server cur target) con
  | .costOfCreating index => finalState (Advisor.costOfCreating server index) con

/-- The indexes a call may touch belong to the database `d`. -/
def Call.Within (d : JString) : Call → Prop
  | .whatIf _ configuration => configuration.Within d
  | .costOf _ configuration => configuration.Within d
  | .simulateConfig configuration => configuration.Within d
  | .changeConfig _ target => ∀ ix ∈ target, ix.dbname = d
  | .costOfCreating index => index.dbname = d

/-- The calls that create an index without registering it. -/
def Call.probes : Call → Bool
  | .changeConfig _ _ => true
  | .costOfCreating _ => true
  | _ => false

/-- The states between the calls of a run, each call meeting its own server. -/
def runStates (con : Connection) : List (Server × Call) → List Connection
  | [] => [con]
  | (server, call) :: rest => con :: runStates (call.after server con) rest

theorem Call.after_consistent {server : Server} (call : Call) (hWithin : call.Within d)
    (hServer : call.probes → ProbeDropsSucceed server) (h : ConsistentAt d con) :
    ConsistentAt d (call.after server con) := by
  cases call with
  | whatIf query configuration =>
    exact (whatIf_keeps server query configuration hWithin).finalState h
  | costOf workload configuration =>
    exact (costOf_keeps server workload configuration hWithin).finalState h
  | simulateConfig configuration =>
    exact (simulateConfig_keeps server configuration hWithin).finalState h
  | changeConfig cur target =>
    exact (changeConfig_keeps server (hServer rfl) cur hWithin).finalState h
  | costOfCreating index =>
    exact (costOfCreating_keeps server (hServer rfl) hWithin).finalState h

theorem runStates_consistent :
    ∀ (run : List (Server × Call)) (con : Connection), ConsistentAt d con →
      (∀ step ∈ run, step.2.Within d ∧
        (step.2.probes → ProbeDropsSucceed step.1)) →
      ∀ con' ∈ runStates con run, ConsistentAt d con' := by
  intro run
  induction run with
  | nil =>
    intro con hCon _
    exact forall_mem_singleton.mpr hCon
  | cons step rest ih =>
    intro con hCon hRun
    obtain ⟨hWithin, hServer⟩ := hRun step (by simp)
    exact forall_mem_cons.mpr ⟨hCon, ih _ (step.2.after_consistent hWithin hServer hCon)
      fun step' h => hRun step' (by simp [h])⟩

/-- All members of the configuration are hypothetical (`curHypConfig` itself
never holds another kind). -/
def ConfigRef.AllHypothetical : ConfigRef → Prop
  | .list ixs => ∀ ix ∈ ixs, ix.hypothetical = true
  | .curHypConfig => True

/-- The hypothetical indexes present are exactly the members of the
configuration, by name. -/
def Shows (configuration : ConfigRef) (con : Connection) : Prop :=
  ∀ n, ⟨n, true⟩ ∈ con.present ↔
    ∃ ix ∈ configuration.read con, con.name ix = n

theorem simulateConfig_shows {server : Server} {con' : Connection} (h : ConsistentAt d con)
    (hWithin : configuration.Within d) (hHyp : configuration.AllHypothetical)
    (hRun : simulateConfig server configuration con = .ok () con') : Shows configuration con' := by
  obtain ⟨⟨hCon, hName⟩, hAll, hMat⟩ := (simulateConfig_ends server configuration hWithin).ok h hRun
  have hRead : con'.curHypConfig = configuration.read con' := by
    cases configuration with
    | list ixs =>
      rw [hAll]
      exact filter_eq_self.mpr hHyp
    | curHypConfig => rfl
  intro n
  rw [hCon.inStep n, ← hRead]
  constructor
  · rintro ⟨ix, hMem, -, hEq⟩
    exact ⟨ix, hMem, hEq⟩
  · rintro ⟨ix, hMem, hEq⟩
    exact ⟨ix, hMem, hMat ix hMem, hEq⟩

/-- **The advisor database stays in step with `curHypConfig`** in every run in which no `DROP` of
an unregistered probe index is refused: after every call, normal or exceptional, and after every
normal `simulateConfig` the database shows the simulated configuration. -/
theorem hypConfig_in_step (con : Connection) (hOpened : Opened con) (run : List (Server × Call))
    (hRun : ∀ step ∈ run, step.2.Within con.dbName ∧
      (step.2.probes = true → ProbeDropsSucceed step.1)) :
    ∀ con' ∈ runStates con run, InStep con' ∧
      ∀ (server : Server) (configuration : ConfigRef) (con'' : Connection),
        configuration.Within con.dbName → configuration.AllHypothetical →
        simulateConfig server configuration con' = .ok () con'' →
        Shows configuration con'' := by
  intro con' hMem
  have hAt : ConsistentAt con.dbName con' :=
    runStates_consistent run con ⟨hOpened.consistent, rfl⟩ hRun con' hMem
  refine ⟨hAt.1.inStep, ?_⟩
  intro server configuration con'' hWithin hHyp hEnd
  exact simulateConfig_shows hAt hWithin hHyp hEnd

theorem freshConnection_opened : Opened freshConnection := by
  constructor <;> simp [freshConnection]

def stubbornServer : Server where
  fails := fun sql _ => sql.take 4 == js "DROP".toList
  explain := fun _ _ => some 1

def threeCalls : List (Server × Call) :=
  [(calmServer, .simulateConfig (.list [ordersIndex, customersIndex])),
    (stubbornServer, .whatIf (js ['q']) (.list [customersIndex])),
    (calmServer, .changeConfig [ordersIndex] [ordersIndex, customersIndex])]

/-- The second call fails at its first `DROP`, and both indexes stay; the third drops them,
simulates the one it keeps and probes the other. -/
theorem hypConfig_in_step_orders :
    (∀ con ∈ runStates freshConnection threeCalls, InStep con) ∧
      (runStates freshConnection threeCalls).map (fun con => con.present.map (·.name)) =
        [[], [customersIndex.defaultName, ordersIndex.defaultName],
          [customersIndex.defaultName, ordersIndex.defaultName], [ordersIndex.defaultName]] := by
  refine ⟨fun con hCon => ?_, by decide +kernel⟩
  refine (hypConfig_in_step freshConnection freshConnection_opened threeCalls ?_ con hCon).1
  simp [threeCalls, Call.Within, ConfigRef.Within, Call.probes, ProbeDropsSucceed, calmServer,
    ordersIndex, customersIndex, Index.new, freshConnection]

/-- A refused final `DROP` leaves the probe index behind: it exists in the
database, and `curHypConfig` does not know it. -/
theorem costOfCreating_leaves_probe :
    Opened freshConnection ∧
      (Call.costOfCreating ordersIndex).Within freshConnection.dbName ∧
      ¬ InStep ((Call.costOfCreating ordersIndex).after stubbornServer freshConnection) := by
  refine ⟨freshConnection_opened, rfl, fun h => ?_⟩
  have hPresent : (⟨ordersIndex.defaultName, true⟩ : DbIndex) ∈
      ((Call.costOfCreating ordersIndex).after stubbornServer freshConnection).present := by decide
  obtain ⟨ix, hMem, -⟩ := (h _).mp hPresent
  cases hMem

end PgTuning.Advisor
