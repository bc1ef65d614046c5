import PgTuning.Advisor.HypConfig

/-!
# Pricing on a calm server

A server that refuses no statement, and whose prices depend on the simulated candidates only. The
candidates are hypothetical indexes of the advisor's database, and get different names. Then no
simulation fails, and every pricing call answers for the configuration it was asked about: this is
the simplest setting in which the advisor's cost oracles answer always.
-/

namespace PgTuning.Advisor

open PgTuning.Lib PgTuning.Lib.Attempt Function List Triple

structure Candidates (d : JString) (cand : List Index) : Prop where
  hypothetical : ∀ ix ∈ cand, ix.hypothetical = true
  dbname : ∀ ix ∈ cand, ix.dbname = d
  names : ∀ ix ∈ cand, ∀ iy ∈ cand, ix.defaultName = iy.defaultName → ix = iy

/-- The database has hypothetical indexes only, and the materialized candidates are there under
their own names. -/
structure Simulated (d : JString) (cand : List Index) (con : Connection) : Prop where
  dbName : con.dbName = d
  names : ∀ ix ∈ cand, con.name ix = ix.defaultName ∨
    con.name ix = [] ∧ con.materialized ix = false
  listed : ∀ ix ∈ cand, ⟨ix.defaultName, true⟩ ∈ con.present ↔ con.materialized ix = true
  only : ∀ e ∈ con.present, e.hypothetical = true

/-- Between two calls: what is materialized is registered. -/
structure Settled (d : JString) (cand : List Index) (con : Connection) : Prop
    extends Simulated d cand con where
  members : ∀ ix ∈ con.curHypConfig, ix ∈ cand
  registered : ∀ ix ∈ cand, con.materialized ix = true → ix ∈ con.curHypConfig

/-- The candidates that are materialized are those of the configuration. -/
structure Simulating (d : JString) (cand conf : List Index) (con : Connection) : Prop
    extends Settled d cand con where
  exactly : ∀ ix ∈ cand, con.materialized ix = true ↔ ix ∈ conf

/-- The server refuses nothing, and prices a query by the candidates that are there. -/
structure CalmWith (server : Server) (cand : List Index) (price : JString → List Index → ℚ) :
    Prop where
  accepts : ∀ sql con, server.fails sql con = false
  prices : ∀ query conf con, (∀ ix ∈ cand, ⟨ix.defaultName, true⟩ ∈ con.present ↔ ix ∈ conf) →
    server.explain (js "explain hypothetical ".toList ++ query) con = some (price query conf)

variable {server : Server} {d : JString} {cand conf : List Index} {con : Connection} {ix : Index}
  {price : JString → List Index → ℚ}

theorem Simulated.tick (h : Simulated d cand con) : Simulated d cand con.tick :=
  { h with }

section

variable (hCand : Candidates d cand) (hServer : CalmWith server cand price)
  (h : Simulated d cand con) (hIx : ix ∈ cand)
include hCand hServer h hIx

theorem drop_calm : ∃ con', ix.drop server con = .ok () con' ∧ Simulated d cand con' ∧
    con'.curHypConfig = con.curHypConfig ∧
    con'.materialized = update con.materialized ix false := by
  have hDb := h.dbName.trans (hCand.dbname ix hIx).symm
  have hHyp := hCand.hypothetical ix hIx
  have hName (hMat : con.materialized ix = true) : con.name ix = ix.defaultName :=
    (h.names ix hIx).resolve_right fun hNot => ne_true_of_eq_false hNot.2 hMat
  rcases drop_cases server ix con with ⟨hRun, hWhy⟩ | ⟨hRun, hMat, -⟩ | ⟨-, hMat, -, hWhy⟩
  · have hMat := hWhy.resolve_right (not_not.mpr hDb)
    exact ⟨con, hRun, h, rfl, by rw [← hMat, update_eq_self]⟩
  · refine ⟨dropped con ix, hRun, ⟨h.dbName, fun iy hIy => ?_, fun iy hIy => ?_, fun e he => ?_⟩,
      rfl, rfl⟩
    · refine (h.names iy hIy).imp_right fun hNot => ⟨hNot.1, ?_⟩
      exact eq_false_of_ne_true fun hNew => ne_true_of_eq_false hNot.2 (dropped_materialized hNew).2
    · by_cases hEq : iy = ix
      · simp [dropped, hName hMat, hHyp, hEq]
      · simp [dropped, hName hMat, hEq, mt (hCand.names iy hIy ix hIx) hEq, h.listed iy hIy]
    · exact h.only e (mem_filter.mp he).1
  · rcases hWhy with hFails | hGone
    · simp [hServer.accepts] at hFails
    · rw [hName hMat, hHyp, h.listed ix hIx] at hGone
      exact absurd hMat hGone

theorem create_calm : ∃ con', ix.create server con = .ok () con' ∧ Simulated d cand con' ∧
    con'.curHypConfig = con.curHypConfig ∧
    con'.materialized = update con.materialized ix true := by
  have hDb := h.dbName.trans (hCand.dbname ix hIx).symm
  have hHyp := hCand.hypothetical ix hIx
  have hName : ix.nameFor con = ix.defaultName := by
    unfold Index.nameFor
    rcases h.names ix hIx with hEq | ⟨hEq, -⟩ <;> simp [hEq]
  rcases create_cases server ix con with ⟨hRun, hWhy⟩ | ⟨hRun, -⟩ | ⟨-, hMat, -, hWhy⟩
  · have hMat := hWhy.resolve_right (not_not.mpr hDb)
    exact ⟨con, hRun, h, rfl, by rw [← hMat, update_eq_self]⟩
  · refine ⟨created con ix, hRun, ⟨h.dbName, fun iy hIy => ?_, fun iy hIy => ?_,
      forall_mem_cons.mpr ⟨hHyp, h.only⟩⟩, rfl, rfl⟩
    · by_cases hEq : iy = ix
      · exact .inl (by rw [hEq, (created_self con ix).1, hName])
      · rw [(created_of_ne con hEq).1, (created_of_ne con hEq).2]
        exact h.names iy hIy
    · by_cases hEq : iy = ix
      · simp [created, hName, hHyp, hEq]
      · simp [created, hName, hEq, mt (hCand.names iy hIy ix hIx) hEq, h.listed iy hIy]
  · rcases hWhy with hFails | ⟨⟨name, hyp⟩, he, hTaken⟩
    · simp [hServer.accepts] at hFails
    · cases h.only _ he
      rw [show name = ix.defaultName from hTaken.trans hName, h.listed ix hIx] at he
      exact absurd he (ne_true_of_eq_false hMat)

end

section

variable (hCand : Candidates d cand) (hServer : CalmWith server cand price)
include hCand hServer

theorem simulateConfig_calm (hConf : ∀ ix ∈ conf, ix ∈ cand) :
    Ends (Settled d cand) (simulateConfig server (.list conf)) (fun _ => Simulating d cand conf)
      (fun _ => False) := by
  apply ends_get_bind
  intro start hStart
  -- The first loop drops what was registered, and nothing else is materialized.
  apply bind (R := fun _ con => Simulated d cand con ∧ ∀ ix ∈ cand, ¬con.materialized ix)
  · refine ((ends_forM (I := fun done con => Simulated d cand con ∧
      ∀ ix ∈ cand, con.materialized ix → ix ∈ start.curHypConfig ∧ ix ∉ done) _ ?_).pre ?_).post
      fun _ con h => ⟨h.1, fun ix hIx hMat => (h.2 ix hIx hMat).2 (h.2 ix hIx hMat).1⟩
    · rintro pre ix post hSplit con ⟨hCon, hLeft⟩
      have hIx : ix ∈ start.curHypConfig := by simp [hSplit]
      obtain ⟨con', hRun, hCon', -, hMat⟩ := drop_calm hCand hServer hCon (hStart.members ix hIx)
      rw [hRun]
      refine ⟨hCon', fun iy hIy hNew => ?_⟩
      rw [hMat] at hNew
      have hNe : iy ≠ ix := by
        rintro rfl
        simp at hNew
      rw [update_of_ne hNe] at hNew
      exact ⟨(hLeft iy hIy hNew).1, by simp [hNe, (hLeft iy hIy hNew).2]⟩
    · rintro con rfl
      exact ⟨hStart.toSimulated, fun ix hIx hMat => ⟨hStart.registered ix hIx hMat, by simp⟩⟩
  intro _
  apply bind (R := fun _ con => Simulated d cand con ∧ con.curHypConfig = [] ∧
    ∀ ix ∈ cand, con.materialized ix = true ↔ ix ∈ ([] : List Index))
  · apply ends_modify
    rintro con ⟨hCon, hLeft⟩
    exact ⟨{ hCon with }, rfl, fun ix hIx => by simp [hLeft ix hIx]⟩
  intro _
  apply ends_get_bind
  intro emptied hEmptied
  -- The second one creates and registers what the configuration lists.
  refine ((ends_forM (I := fun done con => Simulated d cand con ∧ con.curHypConfig = done ∧
    ∀ ix ∈ cand, con.materialized ix = true ↔ ix ∈ done) conf ?_).fromState hEmptied).post ?_
  · rintro pre ix post hSplit con ⟨hCon, hCur, hMat⟩
    have hIx : ix ∈ cand := hConf ix (by simp [hSplit])
    obtain ⟨con', hRun, hCon', hCur', hMat'⟩ := create_calm hCand hServer hCon hIx
    unfold simulateIndex
    rw [if_pos (hCand.hypothetical ix hIx), bind_run_ok hRun]
    refine ⟨{ hCon' with }, by simp [hCur', hCur], fun iy hIy => ?_⟩
    by_cases hEq : iy = ix
    · simp [hMat', hEq]
    · simp [hMat', hMat iy hIy, hEq]
  · rintro - con ⟨hCon, hCur, hMat⟩
    refine ⟨⟨hCon, ?_, ?_⟩, hMat⟩ <;> rw [hCur]
    · exact hConf
    · exact fun ix hIx => (hMat ix hIx).mp

omit hCand in
theorem execExplain_calm (query : JString) (h : Simulated d cand con)
    (hExactly : ∀ ix ∈ cand, con.materialized ix = true ↔ ix ∈ conf) :
    execExplain server query con = .ok (some (price query conf)) con.tick := by
  unfold execExplain
  rw [hServer.prices query conf con fun ix hIx => ?_]
  rw [h.listed ix hIx, hExactly ix hIx]

omit hCand in
theorem Simulating.execExplain (query : JString) :
    Ends (Simulating d cand conf) (execExplain server query)
      (fun t con => t = some (price query conf) ∧ Simulating d cand conf con) (fun _ => False) := by
  intro con hCon
  rw [execExplain_calm hServer query hCon.toSimulated hCon.exactly]
  exact ⟨rfl, ⟨hCon.toSimulated.tick, hCon.members, hCon.registered⟩, hCon.exactly⟩

theorem whatIf_calm (query : JString) (hConf : ∀ ix ∈ conf, ix ∈ cand) :
    Ends (Settled d cand) (whatIf server query (.list conf))
      (fun t con => t = some (price query conf) ∧ Settled d cand con) (fun _ => False) := by
  apply (simulateConfig_calm hCand hServer hConf).seq
  exact (Simulating.execExplain hServer query).post fun _ _ h => ⟨h.1, h.2.toSettled⟩

theorem costOf_calm (workload : List JString) (hConf : ∀ ix ∈ conf, ix ∈ cand) :
    Ends (Settled d cand) (costOf server workload (.list conf))
      (fun cost con => cost = (workload.map (price · conf)).sum ∧ Settled d cand con)
      (fun _ => False) := by
  apply (simulateConfig_calm hCand hServer hConf).seq
  refine post ((ends_foldlM (I := fun done cst con =>
    cst = (done.map (price · conf)).sum ∧ Simulating d cand conf con)
    workload 0 ?_).pre fun _ h => ⟨rfl, h⟩) fun _ _ h => ⟨h.1, h.2.toSettled⟩
  rintro pre query post cst - con ⟨hCst, hCon⟩
  apply ((Simulating.execExplain hServer query).bind_value ?_) con hCon
  apply ends_pure
  intro con' hCon'
  exact ⟨by simp [hCst], hCon'⟩

/-- Where no query's price depends on the indexes, the creation of a candidate is free. -/
theorem costOfCreating_calm (hFlat : ∀ query conf conf', price query conf = price query conf')
    (hIx : ix ∈ cand) :
    Ends (Settled d cand) (costOfCreating server ix)
      (fun cost con => cost = 0 ∧ Settled d cand con) (fun _ => False) := by
  have hThere (con : Connection) (iy : Index) (hIy : iy ∈ cand) :
      con.materialized iy = true ↔ iy ∈ cand.filter con.materialized := by simp [hIy]
  intro con hCon
  unfold costOfCreating
  rw [bind_run_ok (execExplain_calm hServer _ hCon.toSimulated (hThere con))]
  obtain ⟨con₁, hCreate, hCon₁, hCur₁, hMat₁⟩ := create_calm hCand hServer hCon.toSimulated.tick hIx
  rw [bind_run_ok hCreate, bind_run_ok (execExplain_calm hServer _ hCon₁ (hThere con₁))]
  obtain ⟨con₂, hDrop, hCon₂, hCur₂, hMat₂⟩ := drop_calm hCand hServer hCon₁.tick hIx
  rw [bind_run_ok hDrop, hFlat _ (cand.filter con.materialized) (cand.filter con₁.materialized)]
  have hCur : con₂.curHypConfig = con.curHypConfig := hCur₂.trans hCur₁
  refine ⟨sub_self _, hCon₂, hCur ▸ hCon.members, fun iy hIy hMat => ?_⟩
  rw [hCur]
  refine hCon.registered iy hIy ?_
  by_cases hEq : iy = ix
  · simp [hMat₂, hEq] at hMat
  · simpa [hMat₂, hMat₁, hEq] using hMat

theorem changeConfig_calm (hFlat : ∀ query conf conf', price query conf = price query conf')
    (cur : List Index) {target : List Index} (hTarget : ∀ ix ∈ target, ix ∈ cand) :
    Ends (Settled d cand) (changeConfig server cur target)
      (fun cost con => cost = 0 ∧ Settled d cand con) (fun _ => False) := by
  have hCommon : ∀ ix ∈ commonInd cur target, ix ∈ cand :=
    fun ix h => hTarget ix (mem_of_mem_commonInd h)
  apply (simulateConfig_calm hCand hServer hCommon).seq
  refine (ends_foldlM (I := fun _ cost con => cost = (0 : ℚ) ∧ Settled d cand con)
    (newInd cur target) 0 ?_).pre fun _ h => ⟨rfl, h.toSettled⟩
  rintro pre ix post cost hSplit con ⟨hCost, hCon⟩
  have hNew : ix ∈ newInd cur target := by simp [hSplit]
  have hIx := hTarget ix (mem_filter.mp hNew).1
  apply ((costOfCreating_calm hCand hServer hFlat hIx).bind_value ?_) con hCon
  apply ends_pure
  intro con' hCon'
  rw [hCost]
  exact ⟨add_zero 0, hCon'⟩

end

/-- A connection on which nothing was simulated yet. -/
theorem Settled.fresh : Settled freshConnection.dbName cand freshConnection where
  dbName := rfl
  names := fun _ _ => .inr ⟨rfl, rfl⟩
  listed := by simp [freshConnection]
  only := nofun
  members := fun _ h => nomatch h
  registered := fun _ _ h => nomatch h

theorem calmServer_calm (cand : List Index) : CalmWith calmServer cand fun _ _ => 1 :=
  ⟨fun _ _ => rfl, fun _ _ _ _ => rfl⟩

end PgTuning.Advisor
