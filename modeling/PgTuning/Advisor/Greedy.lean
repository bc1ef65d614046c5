import PgTuning.Advisor.Calm
import PgTuning.Advisor.Coverage
import PgTuning.Advisor.Votes
import PgTuning.Advisor.WorkFunction

/-!
# What `greedymk` picks

Greedy(m, k) takes the cheapest configuration of `m` candidates and then adds, one at a time, the
candidate that lowers the cost most, until there are `k` of them or none lowers it. In the source
the costs `minCost` and `mCost` of the growing loop are copies of one value and neither is ever
updated, so the first pass breaks off the loop, and `greedymk` returns the cheapest configuration of
`m` candidates.

The cost is an oracle: `PricesSets` says that `costOf` answers `f` for every list of candidates,
whatever their order. Which of several cheapest configurations is taken depends on the iteration
order of a hash map, so the result is asked for in every order.
-/

namespace PgTuning.Advisor

open PgTuning.Lib PgTuning.Lib.Attempt List

/-- `costOf` answers `f` for configurations of candidates, from every state with `I`. -/
structure PricesSets (server : Server) (I : Connection → Prop) (workload : List JString)
    (cand : List Index) (f : List Index → ℚ) : Prop where
  costOf : ∀ conf : List Index, (∀ ix ∈ conf, ix ∈ cand) → ∀ con, I con →
    ∃ con', costOf server workload (.list conf) con = .ok (f conf) con' ∧ I con'
  perm : ∀ conf conf' : List Index, conf.Perm conf' → f conf = f conf'

/-! ## What it is meant to pick -/

section Meant

variable (f : List Index → ℚ) (cand : List Index)

/-- A configuration of `m` of the candidates, of least cost. -/
structure IsCheapest (m : Nat) (T : List Index) : Prop where
  subset : T.Subperm cand
  length : T.length = m
  least : ∀ T' : List Index, T'.Subperm cand → T'.length = m → f T ≤ f T'

/-- The configurations that grow from `T` by the best single additions, each of which
lowers the cost. -/
inductive GrownFrom (T : List Index) : List Index → Prop
  | start : GrownFrom T T
  | add {S : List Index} {J : Index} : GrownFrom T S → J ∈ cand → J ∉ S →
      f (S ++ [J]) < f S → (∀ K ∈ cand, K ∉ S → f (S ++ [J]) ≤ f (S ++ [K])) →
      GrownFrom T (S ++ [J])

/-- No single remaining candidate lowers the cost. -/
def Unimprovable (S : List Index) : Prop := ∀ J ∈ cand, J ∉ S → f S ≤ f (S ++ [J])

/-- What Greedy(m, k) is meant to return. -/
structure GreedyResult (m k : Nat) (S : List Index) : Prop where
  distinct : S.Nodup
  subset : ∀ ix ∈ S, ix ∈ cand
  atLeast : m ≤ S.length
  atMost : m ≤ k → S.length ≤ k
  grown : ∃ T, IsCheapest f cand m T ∧ GrownFrom f cand T S
  stopped : k ≤ S.length ∨ Unimprovable f cand S

end Meant

variable {f : List Index → ℚ} {cand : List Index} {m k : Nat}

theorem Unimprovable.perm (hPerm : ∀ conf conf' : List Index, conf.Perm conf' → f conf = f conf')
    {S T : List Index} (h : S.Perm T) (hS : Unimprovable f cand S) : Unimprovable f cand T := by
  intro J hJ hNot
  have hLe := hS J hJ fun hIn => hNot (h.mem_iff.mp hIn)
  rw [hPerm _ _ h, hPerm _ _ (h.append_right [J])] at hLe
  exact hLe

/-! ## The run -/

section Run

variable {server : Server} {I : Connection → Prop} {workload : List JString}
  {con : Connection} {env : Environment}

theorem greedymk_run (hOracle : PricesSets env.server I workload cand f)
    (m k : Nat) (hCon : I con) :
    ∃ con₁ : Connection, ∀ S, firstEntry (env.mapOrder con₁.clock
        ((subConfigList env con.clock cand m).map fun S => (f S, S))) = some S →
      ∃ con', greedymk env workload cand m k con = .ok (some S) con' := by
  obtain ⟨con₁, hCosts, hCon₁⟩ := mapM_runs (f := fun CIset => do
      let cst ← costOf env.server workload (.list CIset)
      return (cst, CIset)) (subConfigList env con.clock cand m) (by
      intro S hS con hCon
      obtain ⟨con', hRun, hCon'⟩ := hOracle.costOf S
        (fun ix hix => (mem_subConfigList env hS).1.subset hix) con hCon
      exact ⟨con', bind_eq_ok.mpr ⟨f S, con', hRun, rfl⟩, hCon'⟩) con hCon
  refine ⟨con₁, ?_⟩
  intro S hFirst
  have hMember : ∀ ix ∈ S, ix ∈ cand := by
    obtain ⟨c, hMem⟩ := firstEntry_mem hFirst
    obtain ⟨S', hS', hEq⟩ := mem_map.mp ((env.mapOrder_perm _ _).mem_iff.mp hMem)
    cases hEq
    exact fun ix hix => (mem_subConfigList env hS').1.subset hix
  obtain ⟨con₂, hMin, hCon₂⟩ := hOracle.costOf S hMember con₁ hCon₁
  have hCost : ∀ J ∈ cand.filter fun ix => !(S.contains ix), Ends I
      (costOf env.server workload (.list (S ++ [J]))) (fun _ => I) (fun _ => False) := by
    intro J hJ con hCon
    obtain ⟨con', hRun, hCon'⟩ := hOracle.costOf _
      (forall_mem_concat hMember (mem_filter.mp hJ).1) con hCon
    rw [hRun]
    exact hCon'
  obtain ⟨_, con₃, hGrow, rfl, -⟩ := (greedyGrow_ends hCost (f S) k k).returns hCon₂
  refine ⟨con₃, ?_⟩
  unfold greedymk
  rw [bind_run_ok (subConfigs_run env con), bind_run_ok hCosts, bind_run_ok (get_run con₁), hFirst]
  exact bind_eq_ok.mpr ⟨_, con₂, hMin, bind_eq_ok.mpr ⟨_, con₃, hGrow, rfl⟩⟩

theorem greedymk_cheapest (hOracle : PricesSets env.server I workload cand f)
    (hm : m ≤ cand.length) (k : Nat) (hCon : I con) :
    ∃ S con', greedymk env workload cand m k con = .ok (some S) con' ∧
      IsCheapest f cand m S := by
  obtain ⟨con₁, hRun⟩ := greedymk_run hOracle m k hCon
  let costs := (subConfigList env con.clock cand m).map fun S => (f S, S)
  have hPerm := env.mapOrder_perm con₁.clock costs
  have hNe : env.mapOrder con₁.clock costs ≠ [] := by
    obtain ⟨S, hS, -⟩ := exists_mem_subConfigList env con.clock
      (take_sublist m cand).subperm (length_take_of_le hm)
    exact ne_nil_of_mem (hPerm.mem_iff.mpr (mem_map.mpr ⟨S, hS, rfl⟩))
  obtain ⟨b, hMem, hFirst, hLeast⟩ := firstEntry_cheapest hNe
  obtain ⟨con', hOk⟩ := hRun b.2 hFirst
  obtain ⟨S, hS, rfl⟩ := mem_map.mp (hPerm.mem_iff.mp hMem)
  obtain ⟨hSub, hLen⟩ := mem_subConfigList env hS
  refine ⟨S, con', hOk, hSub, hLen, ?_⟩
  intro T hT hCount
  obtain ⟨S', hS', hSame⟩ := exists_mem_subConfigList env con.clock hT hCount
  have hLe := hLeast (f S', S') (hPerm.mem_iff.mpr (mem_map.mpr ⟨S', hS', rfl⟩))
  rw [← hOracle.perm _ _ hSame]
  exact hLe

/-- An environment whose map of costs shows a given entry last. -/
def visitsLast (server : Server) (entry : ℚ × List Index) : Environment where
  server := server
  parse := fun _ => .failed
  setOrder := fun _ xs => xs
  setOrder_perm := fun _ _ => .refl _
  mapOrder := fun _ xs => if entry ∈ xs then xs.erase entry ++ [entry] else xs
  mapOrder_perm := by
    intro _ xs
    split_ifs with hMem
    · exact (perm_append_singleton entry _).trans (perm_cons_erase hMem).symm
    · exact .refl _
  sqrtSucc := fun _ => 1

variable (hOracle : PricesSets server I workload cand f)
include hOracle

/-- Each cheapest configuration is returned in some order. -/
theorem exists_greedymk_eq (k : Nat)
    (hCon : I con) {T : List Index} (hT : IsCheapest f cand m T) :
    ∃ env : Environment, env.server = server ∧ ∃ S con',
      greedymk env workload cand m k con = .ok (some S) con' ∧ S.Perm T := by
  obtain ⟨S, hS, hPerm⟩ := exists_mem_subConfigList (visitsLast server (0, [])) con.clock
    hT.subset hT.length
  let env := visitsLast server (f S, S)
  let costs := (subConfigList env con.clock cand m).map fun S => (f S, S)
  have hIn : (f S, S) ∈ costs := mem_map.mpr ⟨S, hS, rfl⟩
  have hOracle' : PricesSets env.server I workload cand f := hOracle
  obtain ⟨con₁, hRun⟩ := greedymk_run hOracle' m k hCon
  have hFirst : firstEntry (env.mapOrder con₁.clock costs) = some S := by
    have hOrder : env.mapOrder con₁.clock costs = costs.erase (f S, S) ++ [(f S, S)] := if_pos hIn
    rw [hOrder]
    apply firstEntry_last
    intro e he
    obtain ⟨S', hS', rfl⟩ := mem_map.mp (mem_of_mem_erase he)
    obtain ⟨hSub, hLen⟩ := mem_subConfigList env hS'
    rw [hOracle.perm _ _ hPerm]
    exact hT.least S' hSub hLen
  obtain ⟨con', hOk⟩ := hRun S hFirst
  exact ⟨env, rfl, S, con', hOk, hPerm⟩

/-- In every iteration order `greedymk` returns what Greedy(m, k) is meant to. -/
def SelectsGreedily (server : Server) (workload : List JString) (cand : List Index)
    (f : List Index → ℚ) (m k : Nat) (con : Connection) : Prop :=
  ∀ env : Environment, env.server = server → ∃ S con',
    greedymk env workload cand m k con = .ok (some S) con' ∧ GreedyResult f cand m k S

/-- **When `greedymk` is Greedy(m, k)**: no cheapest configuration of `m` candidates
holds one of them twice, and none can be improved by one more candidate (or `k` leaves
no room for one). -/
theorem greedymk_selects_iff (hm : m ≤ cand.length) (k : Nat) (hCon : I con) :
    SelectsGreedily server workload cand f m k con ↔
      ∀ T, IsCheapest f cand m T → T.Nodup ∧ (k ≤ m ∨ Unimprovable f cand T) := by
  constructor
  · intro h T hT
    obtain ⟨env, hEnv, S, con', hRun, hPerm⟩ := exists_greedymk_eq hOracle k hCon hT
    obtain ⟨S', con'', hRun', hResult⟩ := h env hEnv
    rw [hRun] at hRun'
    cases hRun'
    refine ⟨hPerm.nodup_iff.mp hResult.distinct, ?_⟩
    rcases hResult.stopped with hFull | hBest
    · rw [hPerm.length_eq, hT.length] at hFull
      exact .inl hFull
    · exact .inr (hBest.perm hOracle.perm hPerm)
  · rintro h env rfl
    obtain ⟨S, con', hRun, hS⟩ := greedymk_cheapest hOracle hm k hCon
    obtain ⟨hNodup, hStop⟩ := h S hS
    have hLen := hS.length
    refine ⟨S, con', hRun, hNodup, fun ix hix => hS.subset.subset hix, hLen.ge, ?_,
      ⟨S, hS, .start⟩, ?_⟩
    · intro hLe
      omega
    · rw [hLen]
      exact hStop

end Run

def threeCandidates : List Index := [ordersIndex, customersIndex, voteV]

theorem threeCandidates_candidates : Candidates freshConnection.dbName threeCandidates := by
  constructor <;> decide +kernel

/-- An index on the orders saves 2, one on the customers 4. -/
def savings (orders customers : Prop) [Decidable orders] [Decidable customers] : ℚ :=
  9 - (if orders then 2 else 0) - if customers then 4 else 0

def savingServer : Server where
  fails := fun _ _ => false
  explain := fun _ con => some (savings (⟨ordersIndex.defaultName, true⟩ ∈ con.present)
    (⟨customersIndex.defaultName, true⟩ ∈ con.present))

theorem savingServer_calm : CalmWith savingServer threeCandidates
    fun _ conf => savings (ordersIndex ∈ conf) (customersIndex ∈ conf) where
  accepts := fun _ _ => rfl
  prices := fun query conf con h => by
    simp only [savingServer, h ordersIndex (by decide), h customersIndex (by decide)]

/-- The pair of the two indexes that save is the cheapest one, and the third candidate saves
nothing. -/
theorem greedymk_selects_pair :
    SelectsGreedily savingServer [js ['q']] threeCandidates
      (fun conf => savings (ordersIndex ∈ conf) (customersIndex ∈ conf)) 2 3 freshConnection := by
  have hOracle : PricesSets savingServer (Settled freshConnection.dbName threeCandidates)
      [js ['q']] threeCandidates
      fun conf => savings (ordersIndex ∈ conf) (customersIndex ∈ conf) := by
    refine ⟨fun conf hConf con hCon => ?_, fun conf conf' h => by simp only [h.mem_iff]⟩
    obtain ⟨cost, con', hRun, hCost, hCon'⟩ :=
      (costOf_calm threeCandidates_candidates savingServer_calm [js ['q']] hConf).returns hCon
    rw [hCost, map_singleton, sum_singleton] at hRun
    exact ⟨con', hRun, hCon'⟩
  have hLeast (conf : List Index) :
      3 ≤ savings (ordersIndex ∈ conf) (customersIndex ∈ conf) := by
    unfold savings
    split_ifs <;> decide +kernel
  apply (greedymk_selects_iff hOracle (by decide) 3 Settled.fresh).mpr
  intro T hT
  obtain ⟨T', hPerm, hSub⟩ := hT.subset
  refine ⟨hPerm.nodup_iff.mp (hSub.nodup (by decide)), .inr fun J _ _ => ?_⟩
  have hPair := hT.least [ordersIndex, customersIndex] ⟨_, .refl _, by decide⟩ rfl
  have hThree : savings (ordersIndex ∈ [ordersIndex, customersIndex])
      (customersIndex ∈ [ordersIndex, customersIndex]) = 3 := by decide +kernel
  exact (hPair.trans_eq hThree).trans (hLeast _)

def countingServer : Server where
  fails := fun _ _ => false
  explain := fun _ con => some (10 - con.present.length)

/-- The third candidate would lower the cost of the pair from 8 to 7, and there is room
for it, but `greedymk` returns the pair. -/
theorem greedymk_stops_at_pair :
    returned (costOf countingServer [js ['q']] (.list [ordersIndex, customersIndex]))
        freshConnection = some 8 ∧
      returned (costOf countingServer [js ['q']] (.list threeCandidates)) freshConnection = some 7 ∧
      ¬ SelectsGreedily countingServer [js ['q']] threeCandidates
        (fun conf => 10 - conf.dedup.length) 2 3 freshConnection := by
  refine ⟨by decide +kernel, by decide +kernel, ?_⟩
  intro h
  obtain ⟨S, con', hRun, hResult⟩ := h { calmEnvironment with server := countingServer } rfl
  have hPair : returned (greedymk { calmEnvironment with server := countingServer }
      [js ['q']] threeCandidates 2 3) freshConnection = some (some [customersIndex, voteV]) := by
    decide +kernel
  unfold returned at hPair
  rw [hRun] at hPair
  injection hPair with hPair
  injection hPair with hPair
  subst hPair
  rcases hResult.stopped with hFull | hBest
  · exact absurd hFull (by decide)
  · exact absurd (hBest ordersIndex (by decide) (by decide)) (by decide +kernel)

end PgTuning.Advisor
