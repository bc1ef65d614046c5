import PgTuning.Advisor.Readiness

/-!
# Advisor runs that do not fail internally

A run of the advisor adds queries to the master and then asks it for a suggestion. It can fail
internally: `greedymk` has no configuration to return when a query has fewer than two candidates,
`suggest` uses tuners that only `addQuery` sets up, and `analyze` skips the costs of the
configurations whose probe was refused but later reads one cost for each. These are the only ways:
otherwise a run ends with its suggestion or with an `SQLException`.
-/

namespace PgTuning.Advisor

open PgTuning.Lib PgTuning.Lib.Attempt List Function Triple

/-! ## Tuners that have been set up -/

/-- The fields of the tuner are set, with one value for each configuration. -/
structure Serving (t : IndexTuner) : Prop where
  allCand : t.allCand.isSome = true
  sugg : t.sugg.isSome = true
  entries : ∃ curCand w, t.curCand = some curCand ∧ t.w = some w ∧
    w.length = curCand.length

/-- The tuner serves the candidate `a` alone. -/
structure Dealt (a : Index) (t : IndexTuner) : Prop where
  allCand : t.allCand.isSome = true
  curCand : t.curCand = some [[a]]
  w : ∃ x, t.w = some [x]
  sugg : ∃ S, t.sugg = some S ∧ ∀ ix ∈ S, ix = a

theorem Dealt.serving {a : Index} {t : IndexTuner} (h : Dealt a t) : Serving t := by
  obtain ⟨x, hw⟩ := h.w
  obtain ⟨S, hS, -⟩ := h.sugg
  exact ⟨h.allCand, by rw [hS]; rfl, [[a]], [x], h.curCand, hw, rfl⟩

theorem onCon_raises {σ α : Type} {X : JavaException → Prop} {P : σ → Prop} {Q : α → σ → Prop}
    {T : IndexTuner → Prop} {m : Attempt JavaException σ α} (h : Raises X P m Q) :
    Raises X (fun s => P s.con ∧ T s.tuner) (onCon m) (fun a s => Q a s.con ∧ T s.tuner) :=
  raises_zoom h (fun _ hs => hs.1) fun _ _ _ hs hQ => ⟨hQ, hs.2⟩

/-! ## `analyze` for one candidate -/

section Analyze

variable {server : Server} {n : Nat} {cand : List Index} {a : Index}

/-- The connection is ready and the tuner serves `a`. -/
def Analyzing (n : Nat) (cand : List Index) (a : Index)
    (s : TunerState Connection) : Prop :=
  Ready advisorDb n cand s.con ∧ Dealt a s.tuner

variable {X : JavaException → Prop}

theorem getW_analyzing : Maintains X (Analyzing n cand a) (getW 0) := by
  apply ends_get_bind
  intro s hs t ht
  obtain ⟨x, hw⟩ := hs.2.w
  rw [ht, hw]
  exact hs

theorem setW_analyzing (x : ℚ) : Maintains X (Analyzing n cand a) (setW 0 x) := by
  apply ends_modify
  rintro s ⟨hReady, hDealt⟩
  obtain ⟨y, hw⟩ := hDealt.w
  refine ⟨hReady, hDealt.allCand, hDealt.curCand, ⟨x, ?_⟩, hDealt.sugg⟩
  rw [hw]
  rfl

theorem chargeEntry_analyzing (x : ℚ) : Maintains X (Analyzing n cand a) (chargeEntry [some x] 0) :=
  getW_analyzing.bind fun _ => setW_analyzing _

theorem suggestEntry_analyzing (x mini : ℚ) :
    Maintains X (Analyzing n cand a) (suggestEntry [[a]] [some x] mini 0) := by
  show Raises _ _ (if x = mini then _ else _) _
  split_ifs with hx
  · apply ends_modify
    rintro s ⟨hReady, hDealt⟩
    exact ⟨hReady, hDealt.allCand, hDealt.curCand, hDealt.w, [a], rfl, by simp⟩
  · exact ends_pure fun _ h => h

variable (hPrices : AlwaysPrices server) (hAccepts : AcceptsHypothetical server)
  (ha : Candidate advisorDb n a)
include hPrices hAccepts ha

theorem changeConfig_analyzing (cur : List Index) {target : List Index}
    (hTarget : ∀ ix ∈ target, ix = a) : Maintains FromDatabase (Analyzing n cand a)
      (onCon ((connectionProber server).changeConfig cur target)) :=
  onCon_raises (changeConfig_ready hPrices hAccepts cur fun ix h => by
    rw [hTarget ix h]
    exact ha)

/-- The probe of the only configuration succeeds, so its cost is not skipped. -/
theorem explainAll_analyzing (hMem : a ∈ cand) (query : JString) :
    Raises X (Analyzing n cand a)
      (explainAll (connectionProber server) query [[a]])
      (fun execTime s => (∃ x, execTime = [some x]) ∧ Analyzing n cand a s) := by
  have hProbe : Raises (fun _ => False) (Analyzing n cand a)
      (onCon ((connectionProber server).whatIf query [a]))
      (fun t s => (t.isSome ∧ Ready advisorDb n cand s.con) ∧ Dealt a s.tuner) :=
    onCon_raises (whatIf_returns hAccepts hPrices query ha hMem)
  refine bind (Raises.tryCatch (hProbe.bind fun t =>
    ends_pure ?_)) fun execTime => ends_pure fun s hs => hs
  rintro s ⟨⟨hSome, hReady⟩, hDealt⟩
  obtain ⟨x, hx⟩ := Option.isSome_iff_exists.mp hSome
  exact ⟨⟨x, by rw [hx]; rfl⟩, hReady, hDealt⟩

theorem relaxEntry_analyzing : Maintains FromDatabase (Analyzing n cand a)
    (relaxEntry (connectionProber server) [[a]] 1 0) := by
  apply getW_analyzing.bind
  intro wi
  refine bind ?_ fun mini => setW_analyzing mini
  apply ends_foldlM_const (I := Analyzing n cand a)
  intro j hj mini
  have hZero : j = 0 := by
    have := mem_range.mp hj
    omega
  subst hZero
  apply getW_analyzing.bind
  intro wj
  exact (changeConfig_analyzing hPrices hAccepts ha [a] (by simp)).bind fun _ =>
    ends_pure fun _ h => h

theorem scoreEntry_analyzing (x : ℚ) :
    Raises FromDatabase (Analyzing n cand a)
      (scoreEntry (connectionProber server) [[a]] [some x] 0)
      (fun execTime s => (∃ y, execTime = [some y]) ∧ Analyzing n cand a s) := by
  intro s hs
  obtain ⟨S, hS, hOnly⟩ := hs.2.sugg
  have hElem : (elemAt [[a]] 0 : TunerM Connection (List Index)) s = .ok [a] s := rfl
  have hRead : (nonNull s.tuner.sugg : TunerM Connection (List Index)) s = .ok S s := by
    rw [hS]
    rfl
  unfold scoreEntry
  rw [bind_run_ok hElem, bind_run_ok (get_run s), bind_run_ok hRead]
  refine (bind (changeConfig_analyzing hPrices hAccepts ha [a]
    hOnly) fun changeTime => ?_) s hs
  apply getW_analyzing.bind
  intro wi
  apply (setW_analyzing wi).bind
  exact fun _ => ends_pure fun t ht => ⟨⟨_, rfl⟩, ht⟩

/-- **`analyze` reads no list past its end** for a tuner that serves one ready
candidate. -/
theorem analyze_analyzing (hMem : a ∈ cand) (query : JString) :
    Maintains FromDatabase (Analyzing n cand a) (analyze (connectionProber server) query) := by
  apply ends_get_bind
  intro s hs
  obtain ⟨w₀, hw⟩ := hs.2.w
  rw [hs.2.curCand, hw]
  show Raises _ _ (explainAll (connectionProber server) query [[a]] >>= _) _
  refine bind ((explainAll_analyzing hPrices hAccepts ha hMem
    query).fromState hs) fun execTime => ?_
  rintro t ⟨⟨x, rfl⟩, ht⟩
  have hOnce : ∀ f : Nat → TunerM Connection Unit,
      Maintains FromDatabase (Analyzing n cand a) (f 0) →
      Maintains FromDatabase (Analyzing n cand a) (forM (range [w₀].length) f) := by
    intro f hf
    apply ends_forM_const
    intro i hi
    have hZero : i = 0 := by
      have := mem_range.mp hi
      simp only [length_cons, length_nil] at this
      omega
    rw [hZero]
    exact hf
  refine (bind (hOnce _ (chargeEntry_analyzing x)) fun _ => ?_) t ht
  apply (hOnce _ (relaxEntry_analyzing hPrices hAccepts ha)).seq
  show Raises _ _ ((scoreEntry _ [[a]] [some x] 0 >>= pure) >>= _) _
  rw [bind_pure]
  apply (scoreEntry_analyzing hPrices hAccepts ha x).bind
  rintro execTime t' ⟨⟨y, rfl⟩, ht'⟩
  exact hOnce _ (suggestEntry_analyzing y _) t' ht'

end Analyze

/-! ## `feedback` for any tuner that has been set up -/

section Feedback

variable {server : Server} {curCand : List (List Index)} {X : JavaException → Prop}

/-- The tuner has one value for each configuration of `curCand`. -/
structure Weighted (curCand : List (List Index)) (s : TunerState Connection) :
    Prop where
  allCand : s.tuner.allCand.isSome = true
  curCand_eq : s.tuner.curCand = some curCand
  entries : ∃ w, s.tuner.w = some w ∧ w.length = curCand.length

theorem getW_weighted {i : Nat} (hi : i < curCand.length) :
    Maintains X (Weighted curCand) (getW i) := by
  apply ends_get_bind
  intro s hs
  obtain ⟨w, hw, hLen⟩ := hs.entries
  rw [hw]
  refine bind (nonNull_returns rfl) fun w' => ?_
  rintro t ⟨rfl, rfl⟩
  exact elemAt_maintains (by omega) t hs

theorem setW_weighted (i : Nat) (x : ℚ) : Maintains X (Weighted curCand) (setW i x) := by
  apply ends_modify
  intro s hs
  obtain ⟨w, hw, hLen⟩ := hs.entries
  refine ⟨hs.allCand, hs.curCand_eq, w.set i x, ?_, by simpa using hLen⟩
  rw [hw]
  rfl

variable (hPrices : AlwaysPrices server)
include hPrices

theorem changeConfig_weighted (cur target : List Index) :
    Maintains FromDatabase (Weighted curCand)
      (onCon ((connectionProber server).changeConfig cur target)) :=
  raises_zoom (changeConfig_raises hPrices cur target) (fun _ _ => trivial)
    fun _ _ _ hs _ => { hs with }

theorem feedbackEntry_weighted (fPlus fMinus sugg : List Index) {indexSugg i : Nat}
    (hSugg : indexSugg < curCand.length) (hi : i < curCand.length) :
    Maintains FromDatabase (Weighted curCand)
      (feedbackEntry (connectionProber server) fPlus fMinus curCand sugg indexSugg i) := by
  apply (elemAt_maintains hi).bind
  intro conf
  apply (changeConfig_weighted hPrices _ _).bind
  intro there
  apply (changeConfig_weighted hPrices _ _).bind
  intro back
  apply (getW_weighted hi).bind
  intro wi
  apply (changeConfig_weighted hPrices _ _).bind
  intro move
  apply (setW_weighted i _).seq
  apply (getW_weighted hi).bind
  intro diff
  apply (getW_weighted hSugg).bind
  intro ws
  apply (setW_weighted i _).seq
  apply (getW_weighted hi).bind
  intro diff
  split
  · exact (getW_weighted hi).bind fun _ => setW_weighted i _
  · exact ends_pure fun _ h => h

theorem feedback_serving (fPlus fMinus : List Index) :
    Maintains FromDatabase (fun s => Serving s.tuner)
      (feedback (connectionProber server) fPlus fMinus) := by
  apply ends_get_bind
  intro s hs
  obtain ⟨sugg, hSugg⟩ := Option.isSome_iff_exists.mp hs.sugg
  obtain ⟨curCand, w, hCur, hw, hLen⟩ := hs.entries
  have hStart : Weighted curCand s := ⟨hs.allCand, hCur, w, hw, hLen⟩
  rw [hSugg, hCur]
  show Raises _ _ (feedbackLoop (connectionProber server) fPlus fMinus curCand sugg >>= _) _
  have hLoop : Maintains FromDatabase (Weighted curCand)
      (feedbackLoop (connectionProber server) fPlus fMinus curCand sugg) := by
    unfold feedbackLoop
    split_ifs with hMem
    · apply ends_forM_const
      intro i hi
      exact feedbackEntry_weighted hPrices fPlus fMinus sugg
        (idxOf_lt_length_iff.mpr hMem) (mem_range.mp hi)
    · exact ends_pure fun _ h => h
  refine bind (hLoop.fromState hStart) fun _ => ends_modify fun t ht => ?_
  obtain ⟨w', hw', hLen'⟩ := ht.entries
  exact ⟨ht.allCand, rfl, curCand, w', ht.curCand_eq, hw', hLen'⟩

end Feedback

/-! ## `deploy` for a pair -/

section Deploy

variable {server : Server} {n : Nat} {cand : List Index}

/-- The previous candidates are known, and after the first call the tuners have
been set up. -/
structure Deployable (M : Master) : Prop where
  prevallCand : M.prevallCand.isSome = true
  serving : M.first = false → ∀ i < k, Serving (M.ik i)

variable {M : Master} {t : IndexTuner}

theorem configurations_single (a : Index) : configurations [a] = [[a]] := rfl

theorem Deployable.update (h : Deployable M) {i : Nat} (ht : M.first = false → i < k → Serving t) :
    Deployable { M with ik := update M.ik i t } := by
  refine ⟨h.prevallCand, fun hFirst => ?_⟩
  exact (forall_update_iff M.ik fun j t => j < k → Serving t).mpr
    ⟨ht hFirst, fun j _ => h.serving hFirst j⟩

/-- The master is `M`, on a connection ready for `cand`. -/
def AtMaster (M : Master) (n : Nat) (cand : List Index)
    (s : MasterState Connection) : Prop :=
  s.master = M ∧ Ready advisorDb n cand s.con

theorem onMasterCon_raises {α : Type} {X : JavaException → Prop} {P : Connection → Prop}
    {Q : α → Connection → Prop} {m : JavaM α} (h : Raises X P m Q) :
    Raises X (fun s => s.master = M ∧ P s.con) (onMasterCon m)
      (fun a s => s.master = M ∧ Q a s.con) :=
  raises_zoom h (fun _ hs => hs.2) fun _ _ _ hs hQ => ⟨hs.1, hQ⟩

theorem entryOf_maintains {X : JavaException → Prop} {P : MasterState Connection → Prop}
    (ht : Serving t) (ix : List Index) : Maintains X P (entryOf t ix) := by
  obtain ⟨allCand, hAll⟩ := Option.isSome_iff_exists.mp ht.allCand
  obtain ⟨curCand, w, hCur, hw, hLen⟩ := ht.entries
  unfold entryOf
  rw [hAll, hCur, hw]
  show Raises _ _ (if intersect allCand ix ∈ curCand then _ else _) _
  split_ifs with hMem
  · have hIdx := idxOf_lt_length_iff.mpr hMem
    exact elemAt_maintains (by omega)
  · exact ends_pure fun _ h => h

variable (hPrices : AlwaysPrices server) (hAccepts : AcceptsHypothetical server)
  (hM : Deployable M)
include hPrices hAccepts hM

/-- **Every tuner `updateCand` uses has been deployed.** -/
theorem updateCand_raises {ix : List Index} (hIx : ∀ a ∈ ix, Candidate advisorDb n a)
    (dm : List Index) : Maintains FromDatabase (AtMaster M n cand)
      (updateCand (connectionProber server) ix dm) := by
  apply ends_get_bind
  intro s hs
  have hChange : ∀ cur target, (∀ a ∈ target, a ∈ ix) →
      Maintains FromDatabase (AtMaster M n cand)
        (onMasterCon ((connectionProber server).changeConfig cur target)) := by
    intro cur target hSub
    exact onMasterCon_raises (changeConfig_ready hPrices hAccepts cur fun a ha => hIx a (hSub a ha))
  split_ifs with hFirst
  · exact (hChange _ ix fun _ h => h).fromState hs
  · have hServing : ∀ i < k, Serving (s.master.ik i) := by
      rw [hs.1]
      rw [hs.1] at hFirst
      exact hM.serving (by simpa using hFirst)
    obtain ⟨prev, hPrev⟩ := Option.isSome_iff_exists.mp hM.prevallCand
    refine bind
      ((ends_foldlM_const (I := AtMaster M n cand) _ _ ?_).fromState hs) fun res => ?_
    · intro i hi res
      exact (entryOf_maintains (hServing i (mem_range.mp hi)) ix).bind fun _ =>
        ends_pure fun _ h => h
    · rw [hs.1, hPrev]
      exact (hChange _ _ fun a ha => (mem_filter.mp ha).1).bind fun _ =>
        ends_pure fun _ h => h

theorem deployPart_raises {a : Index} (ha : Candidate advisorDb n a) (i : Nat) :
    Raises FromDatabase (AtMaster M n cand)
      (deployPart (connectionProber server) i [a])
      (fun _ s => ∃ t, Dealt a t ∧
        AtMaster { M with ik := update M.ik i t } n cand s) := by
  let handed : IndexTuner := { M.ik i with allCand := some [a] }
  let M' : Master := { M with ik := update M.ik i handed }
  have hM' : Deployable M' := by
    apply hM.update
    intro hFirst hi
    have hOld := hM.serving hFirst i hi
    exact ⟨rfl, hOld.sugg, hOld.entries⟩
  refine bind (R := fun _ => AtMaster M' n cand) (ends_modify ?_) fun _ => ?_
  · rintro s ⟨rfl, hReady⟩
    exact ⟨rfl, hReady⟩
  refine (raises_mapM (V := fun _ _ => True) _ fun pc hpc => ?_).bind
    fun timeSet => ends_modify ?_
  · rw [configurations_single, mem_singleton] at hpc
    refine (updateCand_raises hPrices hAccepts hM' ?_ [a]).weaken (fun _ h => h)
      fun _ _ h => ⟨trivial, h⟩
    rw [hpc]
    exact forall_mem_singleton.mpr ha
  rintro ⟨m, con⟩ ⟨hTimes, hMaster, hReady⟩
  have hOne : ∃ x, timeSet = [x] := by
    have hLen := hTimes.length_eq
    rw [configurations_single] at hLen
    exact length_eq_one_iff.mp (by simpa using hLen.symm)
  obtain ⟨x, rfl⟩ := hOne
  have hm : m = M' := hMaster
  subst hm
  refine ⟨{ handed with
    curCand := some (configurations [a])
    w := some [x]
    sugg := some (intersect [a] M.overallSugg) }, ⟨rfl, rfl, ⟨x, rfl⟩, _, rfl, ?_⟩, ?_,
    hReady⟩
  · intro ix hix
    exact mem_singleton.mp (mem_filter.mp hix).1
  · show (modifyTuner i _ (⟨M', con⟩ : MasterState Connection)).master = _
    unfold modifyTuner
    simp only [M', update_self, update_idem]

/-- The state after `deploy`: tuner 0 serves `a`, tuner 1 serves `b`. -/
structure Deployed (workbench : List JString) (n : Nat) (a b : Index)
    (s : MasterState Connection) : Prop where
  ready : Ready advisorDb n [a, b] s.con
  dealt : Dealt a (s.master.ik 0) ∧ Dealt b (s.master.ik 1)
  first : s.master.first = false
  allcand : s.master.allcand.isSome = true
  workbench : s.master.workbench = workbench

theorem deploy_raises (hAll : M.allcand.isSome) {a b : Index}
    (ha : Candidate advisorDb n a) (hb : Candidate advisorDb n b) :
    Raises FromDatabase (AtMaster M n [a, b])
      (deploy (connectionProber server) [[a], [b]])
      (fun _ => Deployed M.workbench n a b) := by
  have hTwo : range (min k [[a], [b]].length) = [0, 1] := rfl
  unfold deploy
  rw [hTwo]
  simp only [forM_cons, bind_assoc]
  apply (deployPart_raises hPrices hAccepts hM ha 0).bind
  rintro _ s ⟨t, ht, hs⟩
  have hM₁ := hM.update (i := 0) fun _ _ => ht.serving
  refine (bind (deployPart_raises hPrices hAccepts hM₁ hb 1) fun _ =>
    ends_modify ?_) s hs
  rintro s' ⟨t', ht', hMaster, hReady⟩
  refine ⟨hReady, ?_, rfl, ?_, ?_⟩
  · show Dealt a (s'.master.ik 0) ∧ Dealt b (s'.master.ik 1)
    rw [hMaster]
    exact ⟨ht, ht'⟩
  · show s'.master.allcand.isSome
    rw [hMaster]
    exact hAll
  · show s'.master.workbench = _
    rw [hMaster]

end Deploy

/-! ## `addQuery` -/

section AddQuery

variable {env : Environment} {workbench : List JString} {n : Nat} {a b : Index}
  (hPrices : AlwaysPrices env.server) (hAccepts : AcceptsHypothetical env.server) {query : JString}

theorem Deployed.serving {s : MasterState Connection} (h : Deployed workbench n a b s) :
    ∀ i < k, Serving (s.master.ik i)
  | 0, _ => h.dealt.1.serving
  | 1, _ => h.dealt.2.serving

include hPrices hAccepts in
/-- Analyzing the query on the tuner of one of the two candidates. -/
theorem onTuner_analyze_deployed (query : JString) (ha : Candidate advisorDb n a)
    (hb : Candidate advisorDb n b) {i : Nat} (hi : i < 2) :
    Maintains FromDatabase (Deployed workbench n a b)
      (onTuner i (analyze (connectionProber env.server) query)) := by
  have hCase : i = 0 ∨ i = 1 := by omega
  rcases hCase with rfl | rfl
  · refine raises_zoom (analyze_analyzing hPrices hAccepts ha
      (by simp) query) (fun s hs => ⟨hs.ready, hs.dealt.1⟩) fun s _ t hs ht => ?_
    exact ⟨ht.1, ⟨ht.2, hs.dealt.2⟩, hs.first, hs.allcand, hs.workbench⟩
  · refine raises_zoom (analyze_analyzing hPrices hAccepts hb
      (by simp) query) (fun s hs => ⟨hs.ready, hs.dealt.2⟩) fun s _ t hs ht => ?_
    exact ⟨ht.1, ⟨hs.dealt.1, ht.2⟩, hs.first, hs.allcand, hs.workbench⟩

theorem uniteSuggestions_raises {X : JavaException → Prop} {I : MasterState Connection → Prop}
    {m : Nat} (hSugg : ∀ s, I s → ∀ i < m, (s.master.ik i).sugg.isSome)
    (hKeep : ∀ s sugg, I s → I { s with master.overallSugg := sugg }) :
    Maintains X I (uniteSuggestions m) := by
  refine bind (ends_modify fun s hs => hKeep s [] hs)
    fun _ => ends_forM_const _ fun i hi => ends_get_bind fun s hs => ?_
  obtain ⟨sugg, hSome⟩ := Option.isSome_iff_exists.mp (hSugg s hs i (mem_range.mp hi))
  rw [hSome]
  refine bind (nonNull_returns rfl) fun _ => ends_modify fun t ht => ?_
  rw [ht.2]
  exact hKeep s _ hs

include hPrices hAccepts in
theorem addSelected_raises (fuel : Nat) (query : JString) {M : Master}
    (hM : Deployable M) (ha : Candidate advisorDb n a) (hb : Candidate advisorDb n b) :
    Raises FromDatabase (AtMaster M n [a, b])
      (addSelected env fuel query workbench [a, b])
      (fun _ => Deployed M.workbench n a b) := by
  intro s hs
  unfold addSelected
  rw [bind_run_ok (onMasterCon_pair env fuel s)]
  let M' : Master := { M with curCand := some [a, b], allcand := some [a, b] }
  have hM' : Deployable M' := ⟨hM.prevallCand, hM.serving⟩
  refine (bind (R := fun _ => AtMaster M' n [a, b]) (ends_modify ?_) fun _ => ?_) s hs
  · rintro t ⟨rfl, hReady⟩
    exact ⟨rfl, hReady⟩
  apply (deploy_raises hPrices hAccepts hM' rfl ha hb).seq
  refine bind (ends_forM_const _ fun i hi =>
    onTuner_analyze_deployed hPrices hAccepts query ha hb (mem_range.mp hi))
    fun _ => uniteSuggestions_raises ?_ ?_
  · exact fun t ht i hi => (ht.serving i hi).sugg
  · exact fun t _ ht => { ht with }

/-- The master between two queries. -/
structure Idle (env : Environment) (s : MasterState Connection) : Prop where
  connection : Selecting [] s.con
  allcand : s.master.allcand.isSome = true
  parsed : ∀ query ∈ s.master.workbench, Parsed env query
  compared : ∀ query ∈ s.master.workbench, 2 ≤ comparedColumns env query
  serving : s.master.first = false → ∀ i < k, Serving (s.master.ik i)

include hPrices in
/-- The selection for the extended workload is a pair that is ready for use. -/
theorem selectCand_raises (hParsed : Parsed env query) (hTwo : 2 ≤ comparedColumns env query)
    {start : MasterState Connection} (hIdle : Idle env start) :
    Raises FromDatabase (fun s => s = start) (selectCand env query)
      (fun r s => ∃ a b n M, r.2 = [a, b] ∧ Candidate advisorDb n a ∧
        Candidate advisorDb n b ∧ Deployable M ∧
        M.workbench = start.master.workbench ++ [query] ∧
        AtMaster M n [a, b] s) := by
  rintro s rfl
  let bench := s.master.workbench ++ [query]
  let M : Master := { s.master with
    workbench := bench
    prevallCand := s.master.allcand }
  have hAllParsed : ∀ q ∈ bench, Parsed env q := forall_mem_concat hIdle.parsed hParsed
  have hAllTwo : ∀ q ∈ bench, 2 ≤ comparedColumns env q := forall_mem_concat hIdle.compared hTwo
  refine (bind (onMasterCon_raises ((CISelection_ready hPrices
    hAllParsed hAllTwo).join (CISelection_ends env bench))) fun CI => ?_) ⟨M, s.con⟩
    ⟨rfl, hIdle.connection, trivial⟩
  rintro s₁ ⟨hM₁, ⟨hSel, hLen⟩, hNodup⟩
  rw [bind_run_ok (modify_run _ s₁)]
  have hEnough : 2 ≤ CI.length := by
    simp only [bench, length_append, length_cons] at hLen
    omega
  refine (bind (onMasterCon_raises
    (enumerate_ready hPrices bench hEnough hNodup hSel.candidates)) fun r => ?_) _
    ⟨by rw [hM₁], hSel.ready⟩
  rintro s₂ ⟨hM₂, S, rfl, hPicked, hReady⟩
  obtain ⟨a, b, rfl⟩ := length_eq_two.mp hPicked.length
  refine ⟨a, b, s₁.con.nextRef, { M with
    curCand := some [a, b]
    allcand := some [a, b] }, rfl, ?_, ?_, ⟨hIdle.allcand, hIdle.serving⟩, rfl, ?_,
    hReady⟩
  · exact hSel.candidates a (hPicked.subset a (by simp))
  · exact hSel.candidates b (hPicked.subset b (by simp))
  · dsimp only
    rw [hM₂]

include hPrices hAccepts in
/-- **Adding a query does not fail internally**, and leaves every tuner set up. -/
theorem addQuery_raises (fuel : Nat) (hParsed : Parsed env query)
    (hTwo : 2 ≤ comparedColumns env query) :
    Raises FromDatabase (Idle env) (addQuery env fuel query)
      (fun _ s => Idle env s ∧ s.master.first = false) := by
  intro s hs
  rw [addQuery_eq]
  refine (bind (selectCand_raises hPrices hParsed hTwo hs) fun r => ?_) s rfl
  rintro t ⟨a, b, n, M, hPair, ha, hb, hM, hBench, ht⟩
  rw [hPair]
  refine (addSelected_raises hPrices hAccepts fuel query hM ha hb).weaken (fun _ h => h) ?_ t ht
  intro _ u hu
  have hQueries : u.master.workbench = s.master.workbench ++ [query] := hu.workbench.trans hBench
  refine ⟨⟨⟨⟨hu.ready.consistent, rfl, ?_, by simp⟩, by simp⟩, hu.allcand, ?_, ?_,
    fun _ => hu.serving⟩, hu.first⟩
  · rw [hu.ready.framed.refs]
    exact hu.ready.framed.below
  · rw [hQueries]
    exact forall_mem_concat hs.parsed hParsed
  · rw [hQueries]
    exact forall_mem_concat hs.compared hTwo

end AddQuery

/-! ## Whole runs -/

/-- A run of the advisor: some queries, then a suggestion. -/
def advisorRun (env : Environment) (fuel : Nat) (queries : List JString)
    (fPlus fMinus : List Index) : MasterM Connection (List Index) := do
  forM queries (addQuery env fuel)
  suggest (connectionProber env.server) fPlus fMinus

theorem suggest_raises {server : Server} (hPrices : AlwaysPrices server)
    (fPlus fMinus : List Index) :
    Raises FromDatabase (fun s => ∀ i < k, Serving (s.master.ik i))
      (suggest (connectionProber server) fPlus fMinus) (fun _ _ => True) := by
  refine bind (ends_forM_const _ ?_) fun _ => ?_
  · intro i hi
    refine raises_zoom (feedback_serving hPrices fPlus fMinus)
      (fun s hs => hs i (mem_range.mp hi)) fun s _ t hs ht j hj => ?_
    exact (forall_update_iff s.master.ik fun j t => j < k → Serving t).mpr
      ⟨fun _ => ht, fun j _ => hs j⟩ j hj
  · refine bind (uniteSuggestions_raises
      (fun s hs i hi => (hs i hi).sugg) fun _ _ h => h) fun _ => ?_
    exact ends_get_bind fun s _ => ends_pure fun _ _ => trivial

theorem addQueries_raises {env : Environment} (hPrices : AlwaysPrices env.server)
    (hAccepts : AcceptsHypothetical env.server) (fuel : Nat) {queries : List JString}
    (hParsed : ∀ query ∈ queries, Parsed env query)
    (hTwo : ∀ query ∈ queries, 2 ≤ comparedColumns env query) (hSome : queries ≠ []) :
    Raises FromDatabase (Idle env) (forM queries (addQuery env fuel))
      (fun _ s => Idle env s ∧ s.master.first = false) := by
  cases queries with
  | nil => exact absurd rfl hSome
  | cons query queries =>
    apply (addQuery_raises hPrices hAccepts fuel (hParsed query (by simp))
      (hTwo query (by simp))).seq
    apply ends_forM_const
    intro q hq
    exact (addQuery_raises hPrices hAccepts fuel (hParsed q (by simp [hq]))
      (hTwo q (by simp [hq]))).weaken (fun _ h => h.1) fun _ _ h => h

/-- **An advisor run fails internally only for one of three reasons.** The run starts from a
connection as it was opened; every query parses, with qualified columns, and every `EXPLAIN` returns
a cost. If there is a query, if each query compares at least two columns and if the server refuses
no statement on a hypothetical index, then whatever the votes the run returns its suggestion or ends
with an `SQLException`. -/
theorem advisorRun_raises (env : Environment) (fuel : Nat) (queries : List JString)
    (fPlus fMinus : List Index) (startx : ConfigRef) (con : Connection) (hOpened : Opened con)
    (hDb : con.dbName = advisorDb) (hFresh : ∀ ix ∈ con.curHypConfig, ix.ref < con.nextRef)
    (hPrices : AlwaysPrices env.server) (hParsed : ∀ query ∈ queries, Parsed env query)
    (hSome : queries ≠ []) (hTwo : ∀ query ∈ queries, 2 ≤ comparedColumns env query)
    (hAccepts : AcceptsHypothetical env.server) :
    ∀ e, thrown (advisorRun env fuel queries fPlus fMinus)
      ⟨Master.new startx con, con⟩ = some e → e = .sql := by
  have hIdle : Idle env ⟨Master.new startx con, con⟩ := by
    refine ⟨⟨⟨⟨hOpened.consistent, hDb⟩, rfl, hFresh, by simp⟩, by simp⟩, rfl,
      by simp [Master.new], by simp [Master.new], ?_⟩
    intro hFirst
    cases hFirst
  have hRun : Raises FromDatabase (Idle env)
      (advisorRun env fuel queries fPlus fMinus) (fun _ _ => True) := by
    apply ((addQueries_raises hPrices hAccepts fuel hParsed hTwo hSome).weaken
      (fun _ h => h) fun _ s hs => hs.1.serving hs.2).bind
    exact fun _ => suggest_raises hPrices fPlus fMinus
  exact fun e hThrown => hRun.thrown hIdle hThrown

theorem calmEnvironment_parsed (query : JString) : Parsed calmEnvironment query :=
  ⟨_, rfl, by unfold Qualified; decide⟩

/-- In the small setting a run with one query returns its suggestion. -/
theorem advisorRun_raises_calm :
    (returned (advisorRun calmEnvironment 1 [js ['q']] [] []) newState).isSome = true ∧
      thrown (advisorRun calmEnvironment 1 [js ['q']] [] []) newState ≠ some .nullPointer := by
  refine ⟨by decide +kernel, fun hNull => ?_⟩
  have hSql := advisorRun_raises calmEnvironment 1 [js ['q']] [] [] .curHypConfig
    freshConnection freshConnection_opened rfl (by simp [freshConnection])
    (fun _ _ => rfl) (fun query _ => calmEnvironment_parsed query) (by simp)
    (by decide) ⟨fun _ _ _ _ => rfl, fun _ _ => rfl⟩ .nullPointer hNull
  cases hSql

def oneColumnEnvironment : Environment :=
  { calmEnvironment with
    parse := fun _ => .condition [⟨.simple_comparison_t, js ['t', '.', 'a']⟩] }

/-- The server refuses the statement with which `analyze` probes its first
configuration. -/
def refusingEnvironment : Environment :=
  { calmEnvironment with
    server := { calmServer with fails := fun _ con => con.clock == 26 } }

/-- The three ways to fail internally: a query with one comparison, no query
before the suggestion, and a probe that was refused. -/
theorem advisorRun_fails :
    thrown (advisorRun oneColumnEnvironment 1 [js ['q']] [] []) newState =
        some .nullPointer ∧
      thrown (advisorRun calmEnvironment 1 [] [] []) newState = some .nullPointer ∧
      thrown (advisorRun refusingEnvironment 1 [js ['q']] [] []) newState =
        some .indexOutOfBounds := by
  decide +kernel

end PgTuning.Advisor
