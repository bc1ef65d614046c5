import PgTuning.Advisor.Deploy
import PgTuning.Advisor.HypConfig
import PgTuning.Advisor.SubConfigs

/-!
# Every candidate is dealt to one tuner

`deploy` and the loops of `addQuery` only visit the first `k` parts, and the partitioner's stopping
condition counts edges instead of parts. What keeps every candidate in the hands of some tuner is
the selection before it: `enumerate` asks `greedymk` for the best *pair* of candidates, and the loop
that should grow it gives up in its first pass. A pair has one edge, so the merging loop makes no
pass, and its two parts go to the two tuners. The two are different objects because every candidate
of one selection is a new object (`Minted`).
-/

namespace PgTuning.Advisor

open PgTuning.Lib PgTuning.Lib.Attempt List Function Nat Triple

/-! ## Object identities -/

/-- Different objects, all made while the next identity went from `lo` to `hi`. -/
structure Minted (lo hi : Nat) (xs : List Index) : Prop where
  le : lo ≤ hi
  nodup : xs.Nodup
  range : ∀ x ∈ xs, lo ≤ x.ref ∧ x.ref < hi

theorem Minted.nil (n : Nat) : Minted n n [] :=
  ⟨le_refl n, nodup_nil, by simp⟩

theorem Minted.append {lo mid hi : Nat} {xs ys : List Index}
    (hx : Minted lo mid xs) (hy : Minted mid hi ys) : Minted lo hi (xs ++ ys) := by
  have hlo := hx.le
  have hhi := hy.le
  refine ⟨by omega, ?_, ?_⟩
  · apply List.Nodup.append hx.nodup hy.nodup
    intro a ha hb
    have h₁ := (hx.range a ha).2
    have h₂ := (hy.range a hb).1
    omega
  · intro a ha
    rcases mem_append.mp ha with ha | ha
    · have h := hx.range a ha
      omega
    · have h := hy.range a ha
      omega

/-- `ys` are `m` different members of `xs`. -/
structure Picked (xs : List Index) (m : Nat) (ys : List Index) : Prop where
  length : ys.length = m
  nodup : ys.Nodup
  subset : ∀ y ∈ ys, y ∈ xs

theorem Minted.picked {lo hi m : Nat} {xs ys : List Index} (hx : Minted lo hi xs)
    (hy : Picked xs m ys) : Minted lo hi ys :=
  ⟨hx.le, hy.nodup, fun y h => hx.range y (hy.subset y h)⟩

/-! ## Reading a reference changes nothing -/

theorem nonNull_keeps {τ α : Type} {I : τ → Prop} (x : Option α) : Keeps I (nonNull x) := by
  cases x with
  | none => exact keeps_throw _
  | some a => exact keeps_pure a

theorem elemAt_keeps {τ α : Type} {I : τ → Prop} (xs : List α) (i : Nat) :
    Keeps I (elemAt xs i) := by
  unfold elemAt
  cases xs[i]? with
  | none => exact keeps_throw _
  | some a => exact keeps_pure a

/-! ## Pricing makes no objects -/

/-- The next identity is `n`. -/
def RefsAt (n : Nat) (con : Connection) : Prop := con.nextRef = n

theorem costOf_refs (server : Server) {n : Nat} (workload : List JString) (S : List Index) :
    Keeps (RefsAt n) (costOf server workload (.list S)) := by
  apply keeps_costOf (fun _ h => h)
  apply keeps_simulateConfig (fun ix => keeps_drop (fun _ h => h) fun _ h => h) fun _ h => h
  intro ix _
  exact keeps_simulateIndex (fun _ => keeps_create (fun _ h => h) fun _ h => h) fun _ h => h

/-! ## `greedymk` picks a pair -/

theorem picked_of_subperm {cand S : List Index} {m : Nat} (hCand : cand.Nodup)
    (hSub : S.Subperm cand) (hLen : S.length = m) : Picked cand m S := by
  obtain ⟨S', hPerm, hSublist⟩ := hSub
  exact ⟨hLen, hPerm.nodup_iff.mp (hSublist.nodup hCand), fun _ hy =>
    hSublist.subset (hPerm.mem_iff.mpr hy)⟩

section Selection

variable (env : Environment) {n : Nat} (workload : List JString)

theorem priced_ends {P : List Index → Prop} (Ss : List (List Index)) (hSs : ∀ S ∈ Ss, P S) :
    Ends (RefsAt n) (Ss.mapM fun S => do
        let cst ← costOf env.server workload (.list S)
        return (cst, S))
      (fun entries con => RefsAt n con ∧ ∀ e ∈ entries, P e.2)
      (fun _ => True) := by
  refine (ends_mapM (I := fun _ (entries : List (ℚ × List Index)) con =>
    RefsAt n con ∧ ∀ e ∈ entries, P e.2) Ss ?_).pre fun con hRef => ⟨hRef, by simp⟩
  intro pre S post entries hSplit con hCon
  have hS : P S := hSs S (by rw [hSplit]; simp)
  refine (((costOf_refs env.server workload S).ends fun _ _ => trivial).bind fun cst => ?_) con hCon.1
  exact ends_pure fun con' hRef => ⟨hRef, forall_mem_concat hCon.2 hS⟩

/-- What `greedymk` returns is a sub-configuration of the size asked for. -/
theorem greedymk_ends {cand : List Index} (hCand : cand.Nodup) (m k : Nat) :
    Ends (RefsAt n) (greedymk env workload cand m k)
      (fun r con => RefsAt n con ∧ ∀ S, r = some S → Picked cand m S)
      (fun _ => True) := by
  intro con hRef
  unfold greedymk
  rw [bind_run_ok (subConfigs_run env con)]
  have hSub : ∀ S ∈ subConfigList env con.clock cand m, Picked cand m S := fun S hS =>
    picked_of_subperm hCand (mem_subConfigList env hS).1 (mem_subConfigList env hS).2
  refine (bind (priced_ends env workload _ hSub) ?_) con hRef
  intro entries
  refine ends_get_bind fun con₁ hEntries => ?_
  cases hFirst : firstEntry (env.mapOrder con₁.clock entries) with
  | none =>
    apply ends_pure
    intro con₂ hEq
    rw [hEq]
    exact ⟨hEntries.1, by simp⟩
  | some S =>
    obtain ⟨cost, hMem⟩ := firstEntry_mem hFirst
    have hS : Picked cand m S :=
      hEntries.2 _ ((env.mapOrder_perm con₁.clock entries).mem_iff.mp hMem)
    have hCost : ∀ conf, Ends (RefsAt n) (costOf env.server workload (.list conf))
        (fun _ => RefsAt n) (fun _ => True) := fun conf =>
      (costOf_refs env.server workload conf).ends fun _ _ => trivial
    refine Ends.weaken ((hCost S).bind fun minCost => ?_) (fun con₂ hEq => ?_)
      (fun _ _ h => h) (fun _ h => h)
    · apply (greedyGrow_ends (fun _ _ => hCost _) minCost k k).bind
      intro S' con₂ hGrown
      refine ⟨hGrown.2, ?_⟩
      intro T hT
      cases hT
      rw [hGrown.1]
      exact hS
    · rw [hEq]
      exact hEntries.1

/-! ## The candidates of one selection -/

theorem exprVisit_ends (dbname : JString) (indexes : List Index) (lcexpr : TExpression) :
    Ends (fun con => Minted n con.nextRef indexes) (exprVisit dbname indexes lcexpr)
      (fun indexes' con => Minted n con.nextRef indexes') (fun _ => True) := by
  unfold exprVisit
  split_ifs with hCmp
  · apply ((elemAt_keeps _ 0).ends fun _ _ => trivial).bind
    intro tableName
    apply ((elemAt_keeps _ 1).ends fun _ _ => trivial).bind
    intro columnNames con hCon
    -- The new object takes the next identity.
    refine hCon.append ⟨le_succ _, nodup_singleton _, ?_⟩
    exact forall_mem_singleton.mpr ⟨le_rfl, lt_succ_self _⟩
  · exact ends_pure fun con hCon => hCon

theorem extractIndexes_ends (query : JString) :
    Ends (RefsAt n) (extractIndexes env query)
      (fun r con => ∀ Is, r = some Is → Minted n con.nextRef Is)
      (fun _ => True) := by
  unfold extractIndexes
  cases env.parse query with
  | failed => exact ends_pure fun con _ Is hIs => by cases hIs
  | noWhereClause => exact ends_throw fun _ _ => trivial
  | condition nodes =>
    refine bind ((ends_foldlM (I := fun _ indexes con => Minted n con.nextRef indexes) nodes []
      fun _ lcexpr _ indexes _ => exprVisit_ends _ indexes lcexpr).pre fun con hRef => ?_)
      fun indexes => ends_pure fun con hCon Is hIs => ?_
    · show Minted n con.nextRef []
      rw [hRef]
      exact Minted.nil n
    · cases hIs
      exact hCon

theorem nonNull_ends {α : Type} {x : Option α} {P Q : α → Connection → Prop}
    (h : ∀ a, x = some a → ∀ con, P a con → Q a con) :
    Ends (fun con => ∀ a, x = some a → P a con) (nonNull x) Q (fun _ => True) := by
  intro con hCon
  cases x with
  | none => trivial
  | some a => exact h a rfl con (hCon a rfl)

theorem selectOne_ends (query : JString) :
    Ends (RefsAt n) (do
        let extracted ← extractIndexes env query
        let Is ← nonNull extracted
        let picked ← enumerate env 10 Is [query]
        nonNull picked : JavaM (List Index))
      (fun picked con => Minted n con.nextRef picked) (fun _ => True) := by
  apply (extractIndexes_ends env query).bind
  intro extracted
  apply (nonNull_ends fun _ _ _ h => h).bind
  intro Is con hMinted
  have hEnum := greedymk_ends env (n := con.nextRef) [query] hMinted.nodup 2 10
  refine (hEnum.bind fun r con' hr => ?_) con rfl
  cases r with
  | none => trivial
  | some S =>
    have hS := hMinted.picked (hr.2 S rfl)
    show Minted n con'.nextRef S
    rw [hr.1]
    exact hS

theorem CISelection_ends :
    Ends (fun _ => True) (CISelection env workload) (fun CI _ => CI.Nodup) (fun _ => True) := by
  intro start _
  refine ((ends_foldlM (I := fun _ CI con => Minted start.nextRef con.nextRef CI) workload [] ?_).post
    fun _ _ h => h.nodup) start (Minted.nil _)
  intro _ query _ CI _ con hCI
  have hOne := (selectOne_ends env query).bind
    (Q := fun CI' con' => Minted start.nextRef con'.nextRef CI')
    fun picked => ends_pure fun con' hPicked => hCI.append hPicked
  simpa only [bind_assoc] using hOne con rfl

end Selection

/-! ## A pair is split into two parts -/

variable (env : Environment) {workbench : List JString}

/-- The one pair of candidates gives one edge; one edge is not more than `k`
parts, so nothing is merged and each candidate is its own part. -/
theorem makeParitions_pair (workBench : List JString)
    (fuel : Nat) (a b : Index) (con : Connection) :
    pr.makeParitions env workBench fuel [a, b] con = .ok ([[a], [b]], [a, b]) con := by
  have hEdges : pr.edges env workBench 2 [a, b] con = .ok ([Edge.new 0 1 0], [a, b]) con := rfl
  have hMerge : pr.mergeLoop [Edge.new 0 1 0] 0 fuel ⟨[0, 1], [0, 0], 1⟩ con =
      .ok ⟨[0, 1], [0, 0], 1⟩ con := by
    unfold Partitioner.mergeLoop
    rfl
  show (pr.mergeLoop [Edge.new 0 1 0] 0 fuel ⟨[0, 1], [0, 0], 1⟩ >>= _) con = _
  rw [bind_run_ok hMerge]
  rfl

/-! ## Who holds which part -/

section Dealing

variable {σ : Type} (p : Prober σ)

/-- The candidates are `cand`, and tuner `j` holds the part `hand j`. -/
def Holding (cand : Option (List Index)) (hand : Nat → Option (List Index))
    (s : MasterState σ) : Prop :=
  s.master.curCand = cand ∧ ∀ j, (s.master.ik j).allCand = hand j

variable {cand : Option (List Index)} {hand : Nat → Option (List Index)}

theorem deployPart_holding (i : Nat) (ix : List Index) :
    Ends (Holding cand hand) (deployPart p i ix)
      (fun _ => Holding cand (update hand i (some ix)))
      (fun _ => True) := by
  intro s hs
  cases hRun : deployPart p i ix s with
  | error e u => trivial
  | ok a u =>
    obtain ⟨ws, after, -, rfl⟩ := deployPart_ok hRun
    refine ⟨hs.1, ?_⟩
    intro j
    show (update s.master.ik i _ j).allCand = _
    by_cases hj : j = i
    · rw [hj, update_self, update_self]
      rfl
    · rw [update_of_ne hj, update_of_ne hj]
      exact hs.2 j

/-- The hands after the first `n` parts have been dealt. -/
def dealt (part : List (List Index)) (hand : Nat → Option (List Index))
    (n j : Nat) : Option (List Index) :=
  if j < n then part[j]? else hand j

theorem dealt_zero (part : List (List Index)) : dealt part hand 0 = hand := by
  funext j
  exact if_neg (not_lt_zero j)

theorem dealt_succ {part : List (List Index)} {i : Nat} {ix : List Index}
    (hGet : part[i]? = some ix) :
    update (dealt part hand i) i (some ix) = dealt part hand (i + 1) := by
  funext j
  unfold dealt
  by_cases hj : j = i
  · rw [hj, update_self, if_pos (by omega), hGet]
  · rw [update_of_ne hj]
    by_cases hlt : j < i
    · rw [if_pos hlt, if_pos (by omega)]
    · rw [if_neg hlt, if_neg (by omega)]

theorem deploy_holding (part : List (List Index)) :
    Ends (Holding cand hand) (deploy p part)
      (fun _ => Holding cand (dealt part hand (min k part.length)))
      (fun _ => True) := by
  refine ((ends_forM_range (I := fun n s => Holding cand (dealt part hand n) s)
    (min k part.length) ?_).pre fun s hs => ?_).bind fun _ => ends_modify fun s hs => hs
  · intro i hi s hs
    have hlt : i < part.length := by omega
    have hGet : part[i]? = some part[i] := getElem?_eq_getElem hlt
    rw [bind_run_ok (elemAt_run hGet s), ← dealt_succ hGet]
    exact deployPart_holding p i part[i] s hs
  · rw [dealt_zero]
    exact hs

/-! ## The rest of `addQuery` deals no cards -/

def HandIs (c : Option (List Index)) (s : TunerState σ) : Prop :=
  s.tuner.allCand = c

section Analyze

variable {c : Option (List Index)}

theorem onCon_hand {α : Type} (m : Attempt JavaException σ α) : Keeps (HandIs c) (onCon m) :=
  keeps_zoom (ends_trivial m) (fun _ _ => trivial) (fun _ _ h _ => h)

theorem getW_hand (i : Nat) : Keeps (HandIs (σ := σ) c) (getW i) := by
  apply keeps_get.bind
  intro s
  exact (nonNull_keeps _).bind fun w => elemAt_keeps w i

theorem setW_hand (i : Nat) (x : ℚ) : Keeps (HandIs (σ := σ) c) (setW i x) :=
  keeps_modify fun _ h => h

theorem explainAll_hand (query : JString) (curCand : List (List Index)) :
    Keeps (HandIs c) (explainAll p query curCand) := by
  apply keeps_foldlM
  intro execTime conf
  apply Keeps.tryCatch
  · exact (onCon_hand _).bind fun _ => keeps_pure _
  · exact fun _ => keeps_pure _

theorem chargeEntry_hand (execTime : List (Option ℚ)) (i : Nat) :
    Keeps (HandIs (σ := σ) c) (chargeEntry execTime i) := by
  apply (getW_hand i).bind
  intro wi
  apply (elemAt_keeps execTime i).bind
  intro t
  exact (unbox_keeps t).bind fun _ => setW_hand i _

variable (curCand : List (List Index))

theorem relaxEntry_hand (n i : Nat) : Keeps (HandIs c) (relaxEntry p curCand n i) := by
  apply (getW_hand i).bind
  intro wi
  refine Keeps.bind (keeps_foldlM ?_) fun _ => setW_hand i _
  intro mini j
  apply (getW_hand j).bind
  intro wj
  apply (elemAt_keeps curCand i).bind
  intro si
  apply (elemAt_keeps curCand j).bind
  intro sj
  exact (onCon_hand _).bind fun _ => keeps_pure _

theorem scoreEntry_hand (execTime : List (Option ℚ)) (i : Nat) :
    Keeps (HandIs c) (scoreEntry p curCand execTime i) := by
  apply (elemAt_keeps curCand i).bind
  intro si
  apply keeps_get.bind
  intro s
  apply (nonNull_keeps _).bind
  intro sugg
  apply (onCon_hand _).bind
  intro changeTime
  apply (elemAt_keeps execTime i).bind
  intro old
  apply (unbox_keeps old).seq
  apply (getW_hand i).bind
  intro wi
  exact (setW_hand i wi).bind fun _ => keeps_pure _

theorem bestScore_hand (execTime : List (Option ℚ)) (n : Nat) :
    Keeps (HandIs (σ := σ) c) (bestScore execTime n) := by
  apply (elemAt_keeps execTime 0).bind
  intro first
  apply (unbox_keeps first).bind
  intro first
  apply keeps_foldlM
  intro mini i
  apply (elemAt_keeps execTime i).bind
  intro t
  exact (unbox_keeps t).bind fun _ => keeps_pure _

theorem suggestEntry_hand (execTime : List (Option ℚ)) (mini : ℚ) (i : Nat) :
    Keeps (HandIs (σ := σ) c) (suggestEntry curCand execTime mini i) := by
  apply (elemAt_keeps execTime i).bind
  intro t
  apply (unbox_keeps t).bind
  intro t
  apply Keeps.ite _ (keeps_pure _)
  exact (elemAt_keeps curCand i).bind fun conf => keeps_modify fun _ h => h

theorem analyze_hand (query : JString) : Keeps (HandIs c) (analyze p query) := by
  apply keeps_get.bind
  intro s
  apply (nonNull_keeps _).bind
  intro curCand
  apply (explainAll_hand p query curCand).bind
  intro execTime
  apply (nonNull_keeps _).bind
  intro w
  apply (keeps_forM fun i => chargeEntry_hand execTime i).seq
  apply (keeps_forM fun i => relaxEntry_hand p curCand w.length i).seq
  apply (keeps_foldlM fun execTime i => scoreEntry_hand p curCand execTime i).bind
  intro execTime
  apply (bestScore_hand execTime w.length).bind
  intro mini
  exact keeps_forM fun i => suggestEntry_hand curCand execTime mini i

end Analyze

theorem onTuner_holding {α : Type} (i : Nat) {m : TunerM σ α}
    (hm : ∀ c, Keeps (HandIs c) m) : Keeps (Holding cand hand) (onTuner i m) := by
  refine keeps_zoom (hm (hand i)) (fun s hs => hs.2 i) fun s t hs ht => ?_
  exact ⟨hs.1, (forall_update_iff s.master.ik fun j tuner => tuner.allCand = hand j).mpr
    ⟨ht, fun j _ => hs.2 j⟩⟩

theorem uniteSuggestions_holding (n : Nat) :
    Keeps (Holding (σ := σ) cand hand) (uniteSuggestions n) := by
  refine Keeps.bind (keeps_modify fun s hs => hs) fun _ => keeps_forM fun i => ?_
  apply keeps_get.bind
  intro s
  exact (nonNull_keeps _).bind fun sugg => keeps_modify fun s hs => hs

end Dealing

/-! ## Coverage -/

/-- Tuner `i` has `ix` among its candidates. -/
def Serves {σ : Type} (s : MasterState σ) (i : Nat) (ix : Index) : Prop :=
  ∃ part, (s.master.ik i).allCand = some part ∧ ix ∈ part

/-- `cand` is what `enumerate` returns for the workload. -/
def Selects (env : Environment) (workbench : List JString) (con : Connection)
    (cand : List Index) : Prop :=
  ∃ CI con₁ con₂, CISelection env workbench con = .ok CI con₁ ∧
    enumerate env 10 CI workbench con₁ = .ok (some cand) con₂

theorem Selects.pair {env : Environment} {con : Connection}
    {cand : List Index} (h : Selects env workbench con cand) : ∃ a b, cand = [a, b] ∧ a ≠ b := by
  obtain ⟨CI, con₁, con₂, hCI, hEnum⟩ := h
  have hNodup : CI.Nodup := (CISelection_ends env workbench).ok trivial hCI
  have hPicked := ((greedymk_ends env workbench hNodup 2 10).ok rfl hEnum).2 cand rfl
  obtain ⟨a, b, rfl⟩ := length_eq_two.mp hPicked.length
  have hNe := hPicked.nodup
  simp only [nodup_cons, mem_singleton] at hNe
  exact ⟨a, b, rfl, hNe.1⟩

/-- `addQuery` after the selection of `cand`. -/
def addSelected (env : Environment) (fuel : Nat) (query : JString)
    (workbench : List JString) (cand : List Index) : MasterM Connection Unit := do
  let (ps, cand) ← onMasterCon (pr.makeParitions env workbench fuel cand)
  modify fun s => { s with
    master.curCand := some cand
    master.allcand := some cand }
  deploy (connectionProber env.server) ps
  forM (range (min k ps.length)) fun i =>
    onTuner i (analyze (connectionProber env.server) query)
  uniteSuggestions (min k ps.length)

theorem onMasterCon_pair (fuel : Nat) {a b : Index} (s : MasterState Connection) :
    onMasterCon (pr.makeParitions env workbench fuel [a, b]) s = .ok ([[a], [b]], [a, b]) s := by
  unfold onMasterCon zoom
  rw [makeParitions_pair]

theorem addSelected_pair_fuel (fuel fuel' : Nat) (query : JString) (workbench : List JString)
    (a b : Index) (s : MasterState Connection) :
    addSelected env fuel query workbench [a, b] s =
      addSelected env fuel' query workbench [a, b] s := by
  unfold addSelected
  rw [bind_run_ok (onMasterCon_pair env fuel s), bind_run_ok (onMasterCon_pair env fuel' s)]

theorem addSelected_pair_holding (fuel : Nat)
    (query : JString) (workbench : List JString) (a b : Index) :
    Ends (fun _ => True) (addSelected env fuel query workbench [a, b])
      (fun _ s => s.master.curCand = some [a, b] ∧
        (s.master.ik 0).allCand = some [a] ∧ (s.master.ik 1).allCand = some [b])
      (fun _ => True) := by
  intro s _
  unfold addSelected
  rw [bind_run_ok (onMasterCon_pair env fuel s)]
  let hand : Nat → Option (List Index) := fun j => (s.master.ik j).allCand
  have hDealt : dealt [[a], [b]] hand (min k [[a], [b]].length) 0 = some [a] ∧
      dealt [[a], [b]] hand (min k [[a], [b]].length) 1 = some [b] := ⟨rfl, rfl⟩
  refine bind (P := fun t => t = s) (R := fun _ => Holding (some [a, b]) hand)
    (ends_modify fun t ht => ?_) (fun _ => ?_) s rfl
  · rw [ht]
    exact ⟨rfl, fun _ => rfl⟩
  apply (deploy_holding (connectionProber env.server) [[a], [b]]).seq
  have hRest : Keeps (Holding (some [a, b])
      (dealt [[a], [b]] hand (min k [[a], [b]].length)))
      (forM (range (min k [[a], [b]].length)) (fun i =>
        onTuner i (analyze (connectionProber env.server) query)) >>= fun _ =>
          uniteSuggestions (min k [[a], [b]].length)) := by
    apply (keeps_forM fun i => onTuner_holding i fun c => analyze_hand _ query).bind
    exact fun _ => uniteSuggestions_holding _
  exact hRest.weaken (fun _ h => h)
    (fun _ t ht => ⟨ht.1, (ht.2 0).trans hDealt.1, (ht.2 1).trans hDealt.2⟩) (fun _ _ => trivial)

/-- The part of `addQuery` before the partitioner: `cand` has been selected. -/
def selectCand (env : Environment) (query : JString) :
    MasterM Connection (List JString × List Index) := do
  modify fun s => { s with
    master.workbench := s.master.workbench ++ [query]
    master.prevallCand := s.master.allcand }
  let s ← get
  let curCand ← onMasterCon (CISelection env s.master.workbench)
  modify fun s => { s with master.curCand := some curCand }
  let curCand ← onMasterCon (enumerate env 10 curCand s.master.workbench)
  modify fun s => { s with
    master.curCand := curCand
    master.allcand := curCand }
  let cand ← nonNull curCand
  return (s.master.workbench, cand)

theorem addQuery_eq (fuel : Nat) (query : JString) :
    addQuery env fuel query = selectCand env query >>= fun r =>
      addSelected env fuel query r.1 r.2 := by
  unfold addQuery selectCand
  simp only [bind_assoc]
  rfl

theorem selectCand_eq_ok {env : Environment} {query : JString} {s t : MasterState Connection}
    {cand : List Index} (h : selectCand env query s = .ok (workbench, cand) t) :
    workbench = s.master.workbench ++ [query] ∧
      Selects env workbench s.con cand := by
  unfold selectCand at h
  rw [bind_run_ok (modify_run _ s), bind_run_ok (get_run _)] at h
  obtain ⟨CI, s₁, hSelect, h₁⟩ := bind_eq_ok.mp h
  obtain ⟨con₁, hCI, hs₁⟩ := zoom_eq_ok.mp hSelect
  rw [bind_run_ok (modify_run _ s₁), hs₁] at h₁
  obtain ⟨curCand, s₂, hEnumerate, h₂⟩ := bind_eq_ok.mp h₁
  obtain ⟨con₂, hEnum, hs₂⟩ := zoom_eq_ok.mp hEnumerate
  rw [bind_run_ok (modify_run _ s₂)] at h₂
  obtain ⟨cand', s₃, hRead, h₃⟩ := bind_eq_ok.mp h₂
  obtain ⟨hSome, -⟩ := nonNull_eq_ok hRead
  cases h₃
  exact ⟨rfl, CI, con₁, con₂, hCI, by rw [← hSome]; exact hEnum⟩

/-- **No candidate is lost.** If `addQuery` returns, from whatever state, then the candidates it
keeps are those `enumerate` returned for the workload; each belongs to exactly one of the `k`
tuners, and the tuners have no others. -/
theorem addQuery_covers (env : Environment) (fuel : Nat) (query : JString)
    (s : MasterState Connection) :
    (∀ fuel', addQuery env fuel' query s = addQuery env fuel query s) ∧
    ∀ s', addQuery env fuel query s = .ok () s' →
      ∃ cand, Selects env (s.master.workbench ++ [query]) s.con cand ∧
        s'.master.curCand = some cand ∧
        (∀ ix ∈ cand, ∃! i, i < k ∧ Serves s' i ix) ∧
        ∀ i < k, ∀ ix, Serves s' i ix → ix ∈ cand := by
  constructor
  · intro fuel'
    rw [addQuery_eq, addQuery_eq]
    apply bind_run_congr
    intro r t hSelect
    obtain ⟨a, b, hPair, -⟩ := (selectCand_eq_ok hSelect).2.pair
    rw [hPair]
    exact addSelected_pair_fuel env fuel' fuel query r.1 a b t
  · intro s' hRun
    rw [addQuery_eq] at hRun
    obtain ⟨⟨workbench, cand⟩, t, hSelect, hRest⟩ := bind_eq_ok.mp hRun
    obtain ⟨hBench, hSelects⟩ := selectCand_eq_ok hSelect
    obtain ⟨a, b, hPair, hNe⟩ := hSelects.pair
    rw [hPair] at hRest
    obtain ⟨hCur, hZero, hOne⟩ :=
      (addSelected_pair_holding env fuel query workbench a b).ok trivial hRest
    -- Of the tuners below `k`, the first serves `a` alone and the second `b`.
    have hServes : ∀ i < k, ∀ ix, Serves s' i ix ↔ (i = 0 ∧ ix = a) ∨ (i = 1 ∧ ix = b) := by
      intro i hi ix
      have hi' : i = 0 ∨ i = 1 := by
        simp only [k] at hi
        omega
      unfold Serves
      rcases hi' with rfl | rfl
      · simp [hZero]
      · simp [hOne]
    refine ⟨cand, by rw [← hBench]; exact hSelects, by rw [hCur, hPair], ?_, ?_⟩
    · rw [hPair]
      intro ix hix
      rcases mem_pair.mp hix with rfl | rfl
      · refine ⟨0, ⟨by decide, (hServes 0 (by decide) _).mpr (by simp)⟩, ?_⟩
        rintro i ⟨hi, hServe⟩
        rcases (hServes i hi _).mp hServe with ⟨h, -⟩ | ⟨-, h⟩
        · exact h
        · exact absurd h hNe
      · refine ⟨1, ⟨by decide, (hServes 1 (by decide) _).mpr (by simp)⟩, ?_⟩
        rintro i ⟨hi, hServe⟩
        rcases (hServes i hi _).mp hServe with ⟨-, h⟩ | ⟨h, -⟩
        · exact absurd h.symm hNe
        · exact h
    · intro i hi ix hServe
      rw [hPair]
      rcases (hServes i hi ix).mp hServe with ⟨-, rfl⟩ | ⟨-, rfl⟩
      · simp
      · simp

/-- The first query of the small setting: `t(a)` goes to tuner 0 and `t(b)` to
tuner 1. -/
theorem addQuery_covers_calm :
    ∃ cand s', addQuery calmEnvironment 1 (js ['q']) newState = .ok () s' ∧
      s'.master.curCand = some cand ∧
      ∀ ix ∈ cand, ∃! i, i < k ∧ Serves s' i ix := by
  have hRun := run_of_returned
    (show returned (addQuery calmEnvironment 1 (js ['q'])) newState = some () by
      decide +kernel)
  obtain ⟨cand, -, hCur, hOne, -⟩ := (addQuery_covers _ _ _ _).2 _ hRun
  exact ⟨cand, _, hRun, hCur, hOne⟩

end PgTuning.Advisor
