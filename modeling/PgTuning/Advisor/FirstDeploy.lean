import PgTuning.Advisor.Greedy

/-!
# The first work function

The first `deploy` stores for each configuration `X` of a part the cost of changing from the start
configuration to `X`. The main program hands the master the connection's own list `curHypConfig` as
the start configuration, and pricing a change simulates the indexes the two configurations share:
the list holds another configuration after every price, and already after the selection.

`deploy_first_run` follows the list through the prices. The entries are right exactly when every
configuration the list holds on the way costs the same change.
-/

namespace PgTuning.Advisor

open PgTuning.Lib PgTuning.Lib.Attempt List

/-! ## What pricing leaves on the connection -/

/-- The configuration the connection simulates after a change from `A` to `X` was
priced. -/
def leftBy (A X : List Index) : List Index := (commonInd A X).filter (·.hypothetical)

section Left

variable {server : Server} {L : List Index}

theorem create_keepsList (ix : Index) :
    Keeps (fun con => con.curHypConfig = L) (ix.create server) :=
  keeps_create (fun _ h => h) fun _ h => h

theorem costOfCreating_keepsList (ix : Index) :
    Keeps (fun con => con.curHypConfig = L) (costOfCreating server ix) :=
  keeps_costOfCreating (fun _ h => h) (create_keepsList ix) (keeps_drop (fun _ h => h) fun _ h => h)

theorem simulateConfig_leaves (conf : List Index) :
    Ends (fun _ => True) (simulateConfig server (.list conf))
      (fun _ con => con.curHypConfig = conf.filter (·.hypothetical)) (fun _ => True) := by
  apply ends_get_bind
  intro start _
  apply (ends_trivial _).seq
  apply Triple.bind (R := fun _ con => con.curHypConfig = [])
  · exact ends_modify fun _ _ => rfl
  intro _
  apply ends_get_bind
  intro con hCon
  apply Triple.fromState (P := fun con => con.curHypConfig = []) _ hCon
  refine ends_forM (f := simulateIndex server)
    (I := fun done con => con.curHypConfig = done.filter (·.hypothetical)) conf ?_
  intro pre ix post _
  unfold simulateIndex
  split_ifs with hHyp
  · apply ((create_keepsList ix).ends fun _ _ => trivial).seq
    apply ends_modify
    intro con hCon
    rw [hCon]
    simp [hHyp]
  · apply ends_pure
    simp [hHyp]

theorem changeConfig_leaves (A X : List Index) :
    Ends (fun _ => True) (changeConfig server A X)
      (fun _ con => con.curHypConfig = leftBy A X) (fun _ => True) := by
  apply (simulateConfig_leaves _).seq
  refine Keeps.ends (keeps_foldlM fun cost ix => ?_) fun _ _ => trivial
  apply (costOfCreating_keepsList ix).bind
  intro _
  exact keeps_pure _

end Left

/-! ## The prices of a list of configurations -/

section Prices

variable (δ : List Index → List Index → ℚ)

/-- The prices of the changes to `X₁, X₂, …` when each one is from what the previous one
left. -/
def prices : List Index → List (List Index) → List ℚ
  | _, [] => []
  | C, X :: Xs => δ C X :: prices (leftBy C X) Xs

def leftAfter (C : List Index) (Xs : List (List Index)) : List Index := Xs.foldl leftBy C

theorem prices_append (C : List Index) (Xs Ys : List (List Index)) :
    prices δ C (Xs ++ Ys) = prices δ C Xs ++ prices δ (leftAfter C Xs) Ys := by
  induction Xs generalizing C with
  | nil => rfl
  | cons X Xs ih => exact congrArg (δ C X :: ·) (ih (leftBy C X))

theorem length_prices (C : List Index) (Xs : List (List Index)) :
    (prices δ C Xs).length = Xs.length := by
  induction Xs generalizing C with
  | nil => rfl
  | cons X Xs ih => exact congrArg (· + 1) (ih (leftBy C X))

/-- Each configuration on the way costs the same change as `S`. -/
def SamePrices (S : List Index) : List Index → List (List Index) → Prop
  | _, [] => True
  | C, X :: Xs => δ C X = δ S X ∧ SamePrices S (leftBy C X) Xs

variable (S C : List Index) (Xs : List (List Index))
include S C Xs

theorem prices_eq_iff :
    prices δ C Xs = Xs.map (δ S) ↔ SamePrices δ S C Xs := by
  induction Xs generalizing C with
  | nil => exact iff_of_true rfl trivial
  | cons X Xs ih =>
    show δ C X :: prices δ (leftBy C X) Xs = δ S X :: Xs.map (δ S) ↔ _
    rw [cons.injEq, ih (leftBy C X)]
    exact Iff.rfl

/-- Whatever the costs are, the prices are those from `S` only if the first one is from
`S`, and so on up to the last. -/
theorem samePrices_forall_iff :
    (∀ δ, SamePrices δ S C Xs) ↔
      Xs = [] ∨ (C = S ∧ ∀ X ∈ Xs.dropLast, leftBy S X = S) := by
  induction Xs generalizing C with
  | nil => exact iff_of_true (fun _ => trivial) (.inl rfl)
  | cons X Xs ih =>
    have hTail := ih (leftBy C X)
    constructor
    · intro h
      have hC : C = S := by
        -- A change that is free from `S` alone.
        have hFree : (if C = S then (0 : ℚ) else 1) = if S = S then 0 else 1 :=
          (h fun A _ => if A = S then 0 else 1).1
        by_contra hNe
        rw [if_neg hNe, if_pos rfl] at hFree
        exact absurd hFree one_ne_zero
      subst hC
      refine .inr ⟨rfl, ?_⟩
      rcases hTail.mp fun δ => (h δ).2 with hNil | ⟨hLeft, hRest⟩
      · rw [hNil]
        intro Y hY
        cases hY
      · cases Xs with
        | nil =>
          intro Y hY
          cases hY
        | cons Z Zs =>
          exact forall_mem_cons.mpr ⟨hLeft, hRest⟩
    · rintro (hNil | ⟨rfl, hAll⟩) δ
      · cases hNil
      · refine ⟨rfl, ?_⟩
        cases Xs with
        | nil => trivial
        | cons Z Zs =>
          apply hTail.mpr
          exact .inr ⟨hAll X (by simp), fun Y hY => hAll Y (mem_cons_of_mem X hY)⟩

end Prices

/-! ## The run of the first deployment -/

variable (part : List (List Index))

/-- The configurations of the first `n` parts, in the order they are priced. -/
def orderTo (n : Nat) : List (List Index) :=
  (range n).flatMap fun i => configurations (part.getD i [])

def pricedOrder : List (List Index) :=
  orderTo part (min k part.length)

theorem orderTo_succ (n : Nat) :
    orderTo part (n + 1) = orderTo part n ++ configurations (part.getD n []) := by
  unfold orderTo
  rw [range_succ]
  simp

/-- The connection answers `δ` for the changes to the configurations of the parts. -/
def PricesMoves (server : Server) (I : Connection → Prop) (part : List (List Index))
    (δ : List Index → List Index → ℚ) : Prop :=
  ∀ X ∈ pricedOrder part, ∀ A con, I con →
    ∃ con', changeConfig server A X con = .ok (δ A X) con' ∧ I con'

/-- The first `n` parts have their first work function. -/
structure FirstDeployed (I : Connection → Prop) (part : List (List Index))
    (δ : List Index → List Index → ℚ) (C : List Index) (n : Nat)
    (s : MasterState Connection) : Prop where
  first : s.master.first = true
  start : s.master.start = .curHypConfig
  configurations : ∀ i < n, (s.master.ik i).curCand = some (configurations (part.getD i []))
  entries : ∀ i < n, (s.master.ik i).w =
    some (prices δ (leftAfter C (orderTo part i)) (Advisor.configurations (part.getD i [])))
  con : I s.con
  list : s.con.curHypConfig = leftAfter C (orderTo part n)

section Run

variable {server : Server} {I : Connection → Prop} {part : List (List Index)}
  {δ : List Index → List Index → ℚ} {C : List Index}

section

variable (hMoves : PricesMoves server I part δ) {s : MasterState Connection}
include hMoves

theorem updateCand_first {X : List Index} (hX : X ∈ pricedOrder part) (dm : List Index)
    (hFirst : s.master.first) (hStart : s.master.start = .curHypConfig) (hCon : I s.con) :
    ∃ con', updateCand (connectionProber server) X dm s =
        .ok (δ s.con.curHypConfig X) ⟨s.master, con'⟩ ∧ I con' ∧
      con'.curHypConfig = leftBy s.con.curHypConfig X := by
  obtain ⟨con', hRun, hCon'⟩ := hMoves X hX s.con.curHypConfig s.con hCon
  refine ⟨con', ?_, hCon', (changeConfig_leaves _ X).ok trivial hRun⟩
  have hRead : readStart (connectionProber server) s = s.con.curHypConfig := by
    unfold readStart
    rw [hStart]
    rfl
  unfold updateCand
  rw [bind_run_ok (get_run s), if_pos hFirst, hRead]
  exact zoom_eq_ok.mpr ⟨con', hRun, rfl⟩

theorem partLoop_first (dm : List Index) :
    ∀ (Xs : List (List Index)) (s : MasterState Connection),
      (∀ X ∈ Xs, X ∈ pricedOrder part) → s.master.first →
      s.master.start = .curHypConfig → I s.con →
      ∃ con', Xs.mapM (fun X => updateCand (connectionProber server) X dm) s =
          .ok (prices δ s.con.curHypConfig Xs) ⟨s.master, con'⟩ ∧ I con' ∧
        con'.curHypConfig = leftAfter s.con.curHypConfig Xs := by
  intro Xs
  induction Xs with
  | nil =>
    intro s _ _ _ hCon
    exact ⟨s.con, rfl, hCon, rfl⟩
  | cons X Xs ih =>
    intro s hXs hFirst hStart hCon
    obtain ⟨con₁, hHead, hCon₁, hLeft⟩ :=
      updateCand_first hMoves (hXs X (by simp)) dm hFirst hStart hCon
    obtain ⟨con', hTail, hCon', hAfter⟩ := ih ⟨s.master, con₁⟩
      (fun Y hY => hXs Y (by simp [hY])) hFirst hStart hCon₁
    simp only [hLeft] at hTail hAfter
    exact ⟨con', mapM_cons_eq_ok.mpr ⟨_, _, _, hHead, hTail, rfl⟩, hCon', hAfter⟩

theorem deployPart_first {n : Nat} (hn : n < min k part.length) :
    Ends (FirstDeployed I part δ C n)
      (elemAt part n >>= fun ix => deployPart (connectionProber server) n ix)
      (fun _ => FirstDeployed I part δ C (n + 1)) (fun _ => False) := by
  intro s hs
  have hLt : n < part.length := by omega
  have hPart : elemAt part n s = .ok (part.getD n []) s := by
    unfold elemAt
    rw [getElem?_getD hLt]
    rfl
  have hPriced : ∀ X ∈ configurations (part.getD n []), X ∈ pricedOrder part := by
    intro X hX
    exact mem_flatMap.mpr ⟨n, mem_range.mpr hn, hX⟩
  rw [bind_run_ok hPart]
  unfold deployPart
  rw [bind_run_ok (modify_run _ s)]
  obtain ⟨con', hLoop, hCon', hAfter⟩ := partLoop_first hMoves (part.getD n [])
    (configurations (part.getD n []))
    (modifyTuner n (fun t => { t with allCand := some (part.getD n []) }) s)
    hPriced hs.first hs.start hs.con
  rw [bind_run_ok hLoop]
  have hList : (modifyTuner n (fun t => { t with allCand := some (part.getD n []) })
      s).con.curHypConfig = leftAfter C (orderTo part n) := hs.list
  refine ⟨hs.first, hs.start, ?_, ?_, hCon', ?_⟩
  · intro i hi
    by_cases hEq : i = n
    · subst hEq
      simp [modifyTuner]
    · have hOld := hs.configurations i (by omega)
      simpa [modifyTuner, hEq] using hOld
  · intro i hi
    by_cases hEq : i = n
    · subst hEq
      rw [hList]
      simp [modifyTuner]
    · have hOld := hs.entries i (by omega)
      simpa [modifyTuner, hEq] using hOld
  · show con'.curHypConfig = _
    rw [hAfter, hList, orderTo_succ]
    unfold leftAfter
    rw [foldl_append]

/-- **The first deployment**: the prices of all configurations, each from what the
earlier ones left. -/
theorem deploy_first_run (hFirst : s.master.first)
    (hStart : s.master.start = .curHypConfig) (hCon : I s.con) :
    ∃ s', deploy (connectionProber server) part s = .ok () s' ∧
      ∀ i < min k part.length,
        (s'.master.ik i).curCand = some (configurations (part.getD i [])) ∧
        (s'.master.ik i).w = some (prices δ
          (leftAfter s.con.curHypConfig (orderTo part i))
          (configurations (part.getD i []))) := by
  have hLoop := ends_forM_range (I := FirstDeployed I part δ s.con.curHypConfig)
    (X := fun _ _ => False) (min k part.length) fun n hn => deployPart_first hMoves hn
  have hBegin : FirstDeployed I part δ s.con.curHypConfig 0 s :=
    ⟨hFirst, hStart, fun i hi => absurd hi (by omega), fun i hi => absurd hi (by omega), hCon,
      rfl⟩
  obtain ⟨_, s₁, hRun, hDone⟩ := hLoop.returns hBegin
  refine ⟨{ s₁ with master.first := false }, ?_, ?_⟩
  · unfold deploy
    exact bind_eq_ok.mpr ⟨(), s₁, hRun, rfl⟩
  · intro i hi
    exact ⟨hDone.configurations i hi, hDone.entries i hi⟩

end

theorem prices_parts_iff (S : List Index) (n : Nat) :
    (∀ i < n, prices δ (leftAfter C (orderTo part i)) (configurations (part.getD i [])) =
        (configurations (part.getD i [])).map (δ S)) ↔
      prices δ C (orderTo part n) = (orderTo part n).map (δ S) := by
  induction n with
  | zero => exact iff_of_true (fun i hi => absurd hi (by omega)) rfl
  | succ n ih =>
    have hLen : (prices δ C (orderTo part n)).length =
        ((orderTo part n).map (δ S)).length := by
      rw [length_prices, length_map]
    rw [orderTo_succ, prices_append, map_append, append_eq_append_iff_of_size_eq_left hLen, ← ih]
    constructor
    · intro h
      exact ⟨fun i hi => h i (by omega), h n (by omega)⟩
    · rintro ⟨hBefore, hLast⟩ i hi
      rcases Nat.lt_succ_iff_lt_or_eq.mp hi with hLt | hEq
      · exact hBefore i hLt
      · rw [hEq]
        exact hLast

end Run

/-! ## The main program -/

/-- `addQuery` up to the partition of the candidates. -/
def selectParts (env : Environment) (fuel : Nat) (query : JString) :
    MasterM Connection (List (List Index)) := do
  let (workbench, cand) ← selectCand env query
  let (ps, cand) ← onMasterCon (pr.makeParitions env workbench fuel cand)
  modify fun s => { s with
    master.curCand := some cand
    master.allcand := some cand }
  return ps

def mainState (con : Connection) : MasterState Connection :=
  ⟨Master.new .curHypConfig con, con⟩

theorem onMasterCon_keeps {α : Type} {P : Master → Prop} (m : JavaM α) :
    Keeps (fun s => P s.master) (onMasterCon m) := by
  intro s hs
  unfold onMasterCon zoom
  cases m s.con with
  | ok a con => exact hs
  | error e con => exact hs

/-- The selection does not touch the start configuration, nor the mark of the first
deployment. -/
theorem selectParts_keeps (env : Environment) (fuel : Nat) (query : JString) :
    Keeps (fun s => s.master.first ∧ s.master.start = .curHypConfig)
      (selectParts env fuel query) := by
  have hCon : ∀ {α : Type} (m : JavaM α),
      Keeps (fun s => s.master.first ∧ s.master.start = .curHypConfig) (onMasterCon m) := fun m =>
    onMasterCon_keeps (P := fun master => master.first ∧ master.start = .curHypConfig) m
  apply Keeps.bind
  · unfold selectCand
    refine Keeps.bind (keeps_modify fun _ h => h) fun _ => ?_
    apply keeps_get.bind
    intro s
    apply (hCon _).bind
    intro curCand
    refine Keeps.bind (keeps_modify fun _ h => h) fun _ => ?_
    apply (hCon _).bind
    intro curCand
    refine Keeps.bind (keeps_modify fun _ h => h) fun _ => ?_
    apply Keeps.bind
    · cases curCand with
      | none => exact keeps_throw _
      | some cand => exact keeps_pure cand
    · intro cand
      exact keeps_pure _
  · intro r
    apply (hCon _).bind
    intro r'
    refine Keeps.bind (keeps_modify fun _ h => h) fun _ => ?_
    exact keeps_pure _

/-- The first deployment of these parts stores the costs of the changes from `S`. -/
def StartsFrom (server : Server) (δ : List Index → List Index → ℚ) (S : List Index)
    (part : List (List Index)) (s : MasterState Connection) : Prop :=
  ∃ s', deploy (connectionProber server) part s = .ok () s' ∧
    ∀ i < min k part.length,
      (s'.master.ik i).curCand = some (configurations (part.getD i [])) ∧
      (s'.master.ik i).w = some ((configurations (part.getD i [])).map (δ S))

/-- **When the first work function starts from the configuration of the main program**: each price
must be the same from the configuration then simulated; whatever the costs, that is so exactly if the
selection leaves the configuration in place, and each price but the last leaves it. -/
theorem firstDeploy_startsFrom_iff {env : Environment} {I : Connection → Prop}
    {part : List (List Index)} {δ : List Index → List Index → ℚ}
    (hMoves : PricesMoves env.server I part δ) {con₀ : Connection} {fuel : Nat}
    {query : JString} {ps : List (List Index)} {s : MasterState Connection}
    (hSelect : selectParts env fuel query (mainState con₀) = .ok ps s) (hCon : I s.con) :
    (StartsFrom env.server δ con₀.curHypConfig part s ↔
      SamePrices δ con₀.curHypConfig s.con.curHypConfig (pricedOrder part)) ∧
    ((∀ δ', SamePrices δ' con₀.curHypConfig s.con.curHypConfig (pricedOrder part)) ↔
      pricedOrder part = [] ∨ (s.con.curHypConfig = con₀.curHypConfig ∧
        ∀ X ∈ (pricedOrder part).dropLast,
          leftBy con₀.curHypConfig X = con₀.curHypConfig)) := by
  refine ⟨?_, samePrices_forall_iff _ _ _⟩
  obtain ⟨hFirst, hStart⟩ := (selectParts_keeps env fuel query).ok ⟨rfl, rfl⟩ hSelect
  obtain ⟨s', hRun, hStored⟩ := deploy_first_run hMoves hFirst hStart hCon
  rw [← prices_eq_iff, pricedOrder, ← prices_parts_iff]
  constructor
  · rintro ⟨s'', hRun', hMeant⟩ i hi
    rw [hRun] at hRun'
    cases hRun'
    have hEq := (hStored i hi).2.symm.trans (hMeant i hi).2
    injection hEq
  · intro h
    refine ⟨s', hRun, ?_⟩
    intro i hi
    rw [(hStored i hi).2, h i hi]
    exact ⟨(hStored i hi).1, rfl⟩

def smallCandidates : List (List Index) :=
  [[Index.new 1 (js ['t']) (js ['a']) true (js "it_dellstore2".toList)],
    [Index.new 2 (js ['t']) (js ['b']) true (js "it_dellstore2".toList)]]

/-- Where no index lowers a price, every change is free, so all prices agree. -/
theorem firstDeploy_startsFrom_calm :
    ∃ s, selectParts calmEnvironment 1 (js ['q']) (mainState freshConnection) =
        .ok smallCandidates s ∧
      StartsFrom calmServer (fun _ _ => 0) [] smallCandidates s := by
  have hCand : Candidates freshConnection.dbName smallCandidates.flatten := by
    constructor <;> decide +kernel
  have hPart : ∀ X ∈ pricedOrder smallCandidates, ∀ ix ∈ X, ix ∈ smallCandidates.flatten := by
    decide +kernel
  have hMoves : PricesMoves calmEnvironment.server
      (Settled freshConnection.dbName smallCandidates.flatten) smallCandidates
      (fun _ _ => 0) := by
    intro X hX A con hCon
    obtain ⟨cost, con', hRun, hCost, hCon'⟩ := (changeConfig_calm hCand (calmServer_calm _)
      (fun _ _ _ => rfl) A (hPart X hX)).returns hCon
    exact ⟨con', hCost ▸ hRun, hCon'⟩
  have hSelect := run_of_returned
    (show returned (selectParts calmEnvironment 1 (js ['q'])) (mainState freshConnection) =
      some smallCandidates by decide +kernel)
  have hSettled : Settled freshConnection.dbName smallCandidates.flatten
      (finalState (selectParts calmEnvironment 1 (js ['q'])) (mainState freshConnection)).con := by
    refine ⟨⟨?_, ?_, ?_, ?_⟩, ?_, ?_⟩ <;> decide +kernel
  have hFree : ∀ C Xs, SamePrices (fun _ _ => 0) [] C Xs := by
    intro C Xs
    induction Xs generalizing C with
    | nil => trivial
    | cons X Xs ih => exact ⟨rfl, ih _⟩
  exact ⟨_, hSelect, (firstDeploy_startsFrom_iff hMoves hSelect hSettled).1.mpr (hFree _ _)⟩

/-- The main program starts without hypothetical indexes, and the selection leaves its two
candidates in place. To create the first one costs 1, but the first deployment stores 0:
it prices the change from the two. -/
theorem firstDeploy_prices_selection :
    ∃ s s', selectParts { calmEnvironment with server := countingServer } 1 (js ['q'])
        (mainState freshConnection) = .ok smallCandidates s ∧
      deploy (connectionProber countingServer) smallCandidates s = .ok () s' ∧
      returned (changeConfig countingServer freshConnection.curHypConfig
        (smallCandidates.getD 0 [])) s.con = some 1 ∧
      (s'.master.ik 0).curCand = some [smallCandidates.getD 0 []] ∧
      (s'.master.ik 0).w = some [0] := by
  have hSelect := run_of_returned
    (show returned (selectParts { calmEnvironment with server := countingServer } 1 (js ['q']))
      (mainState freshConnection) = some smallCandidates by decide +kernel)
  refine ⟨_, _, hSelect, run_of_returned (a := ()) ?_, ?_, ?_, ?_⟩ <;> decide +kernel

end PgTuning.Advisor
