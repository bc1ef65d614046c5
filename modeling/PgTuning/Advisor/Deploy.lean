import Mathlib.Algebra.BigOperators.Group.List.Basic
import Mathlib.Data.List.GetD
import PgTuning.Advisor.Master
import PgTuning.Lib.InPlace

/-!
# Repartitioning and the work function

When the candidates are partitioned anew, the value of a configuration `X` of a new part is to be
the sum, over the tuners, of what the *old* tuner had for its own part of `X`, plus the price of the
candidates not seen before.

`deploy` overwrites the tuners one after the other and computes each value from whatever they hold
at that moment: the tuner being redeployed already has its new `allCand` and still its old work
function, and the tuners before it are entirely new. It is a pass in place (`Lib/InPlace.lean`), and
it carries the work function over exactly when the sums it sees are the old sums.
-/

namespace PgTuning.Advisor

open PgTuning.Lib PgTuning.Lib.Attempt PgTuning.Lib.InPlace List Function

/-! ## The values to be carried over -/

/-- The entry a tuner has for its part of `X`, nothing if it has none. -/
def entryValue (t : IndexTuner) (X : List Index) : ℚ :=
  match t.allCand, t.curCand, t.w with
  | some allCand, some curCand, some w =>
    if intersect allCand X ∈ curCand then
      w.getD (curCand.idxOf (intersect allCand X)) 0
    else 0
  | _, _, _ => 0

def entrySum (ik : Nat → IndexTuner) (X : List Index) : ℚ :=
  ((range k).map fun i => entryValue (ik i) X).sum

section Deploy

variable {σ : Type} (p : Prober σ) (start : ConfigRef)
  (prevallCand : Option (List Index))

/-- The price of the candidates of `X` not seen before. -/
def chargeFor (dm X : List Index) : Attempt JavaException σ ℚ := do
  let con ← get
  let prevallCand ← nonNull prevallCand
  let startNow := match start with
    | .list ixs => ixs
    | .curHypConfig => p.curHypConfig con
  p.changeConfig (subtract (intersect startNow dm) prevallCand)
    (subtract X prevallCand)

/-- The prices for the configurations of one part, in order. -/
def chargesFor (ix : List Index) : Attempt JavaException σ (List ℚ) :=
  (configurations ix).mapM (chargeFor p start prevallCand ix)

/-- The prices for the configurations of the first `n` parts, in order. -/
def allCharges (part : List (List Index)) (n : Nat) :
    Attempt JavaException σ (List (List ℚ)) :=
  (range n).mapM fun i => chargesFor p start prevallCand (part.getD i [])

/-- The work function of a part when the tuners hold `ik`. -/
def carried (ik : Nat → IndexTuner) (ix : List Index) (charges : List ℚ) :
    List ℚ :=
  zipWith (fun X charge => entrySum ik X + charge) (configurations ix) charges

/-- A tuner with the part `ix` and the work function `w`. -/
def deployed (overallSugg ix : List Index) (w : List ℚ) : IndexTuner where
  allCand := some ix
  curCand := some (configurations ix)
  w := some w
  sugg := some (intersect ix overallSugg)

/-- What `deployPart` sees while it serves tuner `i`: its `allCand` is new. -/
def seen (part : List (List Index)) (ik : Nat → IndexTuner) (i : Nat) :
    Nat → IndexTuner :=
  update ik i { ik i with allCand := some (part.getD i []) }

/-- The rule by which `deploy` overwrites tuner `i`. -/
def redeploy (overallSugg : List Index) (part : List (List Index))
    (charges : List (List ℚ)) (ik : Nat → IndexTuner) (i : Nat) : IndexTuner :=
  deployed overallSugg (part.getD i [])
    (carried (seen part ik i) (part.getD i []) (charges.getD i []))

/-- Tuner `i` as it should be: carried over from the old tuners. -/
def carriedOver (overallSugg : List Index) (part : List (List Index))
    (charges : List (List ℚ)) (old : Nat → IndexTuner) (i : Nat) : IndexTuner :=
  deployed overallSugg (part.getD i [])
    (carried old (part.getD i []) (charges.getD i []))

/-! ## What a deployment computes -/

variable {p start prevallCand}

theorem nonNull_eq_ok {τ α : Type} {x : Option α} {a : α} {s u : τ}
    (h : nonNull x s = .ok a u) : x = some a ∧ u = s := by
  cases x with
  | none => cases h
  | some b =>
    cases h
    exact ⟨rfl, rfl⟩

theorem elemAt_eq_ok {τ α : Type} {xs : List α} {i : Nat} {a : α} {s u : τ}
    (h : elemAt xs i s = .ok a u) : xs[i]? = some a ∧ u = s := by
  unfold elemAt at h
  cases hGet : xs[i]? with
  | none =>
    rw [hGet] at h
    cases h
  | some b =>
    rw [hGet] at h
    cases h
    exact ⟨rfl, rfl⟩

variable {s u : MasterState σ} {X : List Index} {ix : List Index}

theorem entryOf_eq_ok {t : IndexTuner} {x : ℚ} (h : entryOf t X s = .ok x u) :
    x = entryValue t X ∧ u = s := by
  obtain ⟨allCand, s₁, hRead₁, h₁⟩ := bind_eq_ok.mp h
  obtain ⟨hAll, rfl⟩ := nonNull_eq_ok hRead₁
  obtain ⟨curCand, s₂, hRead₂, h₂⟩ := bind_eq_ok.mp h₁
  obtain ⟨hCur, rfl⟩ := nonNull_eq_ok hRead₂
  unfold entryValue
  rw [hAll, hCur]
  by_cases hMem : intersect allCand X ∈ curCand
  · rw [if_pos hMem] at h₂
    obtain ⟨w, s₃, hRead₃, h₃⟩ := bind_eq_ok.mp h₂
    obtain ⟨hW, rfl⟩ := nonNull_eq_ok hRead₃
    obtain ⟨hElem, rfl⟩ := elemAt_eq_ok h₃
    rw [hW]
    refine ⟨?_, rfl⟩
    show x = if _ then _ else _
    rw [if_pos hMem, getD_eq_getElem?_getD, hElem]
    rfl
  · rw [if_neg hMem] at h₂
    cases h₂
    refine ⟨?_, rfl⟩
    cases t.w with
    | none => rfl
    | some w => exact (if_neg hMem).symm

theorem entryLoop_eq_ok {ik : Nat → IndexTuner} :
    ∀ (js : List Nat) (acc x : ℚ) (s u : MasterState σ),
      (js.foldlM (fun res i => do return res + (← entryOf (ik i) X)) acc :
        MasterM σ ℚ) s = .ok x u →
      x = acc + (js.map fun i => entryValue (ik i) X).sum ∧ u = s := by
  intro js
  induction js with
  | nil =>
    intro acc x s u h
    cases h
    exact ⟨by simp, rfl⟩
  | cons j js ih =>
    intro acc x s u h
    obtain ⟨acc', s₁, hHead, hTail⟩ := bind_eq_ok.mp h
    obtain ⟨y, s₂, hEntry, hPure⟩ := bind_eq_ok.mp hHead
    obtain ⟨hy, rfl⟩ := entryOf_eq_ok hEntry
    cases hPure
    obtain ⟨hx, hu⟩ := ih _ _ _ _ hTail
    refine ⟨?_, hu⟩
    rw [hx, hy, map_cons, sum_cons, add_assoc]

/-- `updateCand` after the first deployment: the sum of the entries as the
tuners stand, plus the price of the new candidates. -/
theorem updateCand_eq_ok {dm : List Index} {x : ℚ}
    (hFirst : s.master.first = false) (h : updateCand p X dm s = .ok x u) :
    ∃ charge con',
      chargeFor p s.master.start s.master.prevallCand dm X s.con = .ok charge con' ∧
      x = entrySum s.master.ik X + charge ∧ u = ⟨s.master, con'⟩ := by
  unfold updateCand at h
  rw [bind_run_ok (get_run s), if_neg (by simp [hFirst])] at h
  obtain ⟨res, s₁, hLoop, h₁⟩ := bind_eq_ok.mp h
  obtain ⟨hRes, hs₁⟩ := entryLoop_eq_ok _ _ _ _ _ hLoop
  obtain ⟨prev, s₂, hRead, h₂⟩ := bind_eq_ok.mp h₁
  obtain ⟨hPrev, hs₂⟩ := nonNull_eq_ok hRead
  rw [hs₂, hs₁] at h₂
  obtain ⟨charge, s₃, hCall, h₃⟩ := bind_eq_ok.mp h₂
  obtain ⟨con', hCharge, hState⟩ := zoom_eq_ok.mp hCall
  cases h₃
  refine ⟨charge, con', ?_, by rw [hRes, zero_add]; rfl, hState⟩
  unfold chargeFor
  rw [hPrev]
  exact hCharge

/-- A value of a configuration is computed without changing the master. -/
theorem updateCand_master {dm : List Index} {x : ℚ} (h : updateCand p X dm s = .ok x u) :
    u.master = s.master := by
  cases hFirst : s.master.first with
  | true =>
    unfold updateCand at h
    rw [bind_run_ok (get_run s), if_pos hFirst] at h
    obtain ⟨con', -, rfl⟩ := zoom_eq_ok.mp h
    rfl
  | false =>
    obtain ⟨charge, con', -, -, rfl⟩ := updateCand_eq_ok hFirst h
    rfl

theorem partLoop_master {Xs : List (List Index)} {ws : List ℚ}
    (h : Xs.mapM (fun X => updateCand p X ix) s = .ok ws u) :
    u.master = s.master ∧ ws.length = Xs.length := by
  induction Xs generalizing s ws with
  | nil =>
    cases h
    exact ⟨rfl, rfl⟩
  | cons X Xs ih =>
    obtain ⟨w, s₁, ws', hHead, hTail, rfl⟩ := mapM_cons_eq_ok.mp h
    obtain ⟨hMaster, hLen⟩ := ih hTail
    exact ⟨hMaster.trans (updateCand_master hHead), by simp [hLen]⟩

/-- What a deployed part leaves, at the first and at every later deployment. -/
theorem deployPart_ok {i : Nat} (h : deployPart p i ix s = .ok () u) :
    ∃ ws after, (configurations ix).mapM (fun X => updateCand p X ix)
        (modifyTuner i (fun t => { t with allCand := some ix }) s) = .ok ws after ∧
      u = ⟨{ s.master with
        ik := update s.master.ik i (deployed s.master.overallSugg ix ws) }, after.con⟩ := by
  unfold deployPart at h
  rw [bind_run_ok (modify_run _ s)] at h
  obtain ⟨ws, ⟨master, con⟩, hLoop, h₁⟩ := bind_eq_ok.mp h
  have hMaster := (partLoop_master hLoop).1
  cases h₁
  subst hMaster
  refine ⟨ws, _, hLoop, ?_⟩
  simp only [modifyTuner, update_self, update_idem]
  rfl

theorem partLoop_eq_ok :
    ∀ (Xs : List (List Index)) (s : MasterState σ) (ws : List ℚ)
      (u : MasterState σ), s.master.first = false →
      Xs.mapM (fun X => updateCand p X ix) s = .ok ws u →
      ∃ charges con',
        Xs.mapM (chargeFor p s.master.start s.master.prevallCand ix) s.con = .ok charges con' ∧
        charges.length = Xs.length ∧
        ws = zipWith (fun X charge => entrySum s.master.ik X + charge) Xs charges ∧
        u = ⟨s.master, con'⟩ := by
  intro Xs
  induction Xs with
  | nil =>
    intro s ws u _ h
    cases h
    exact ⟨[], s.con, rfl, rfl, rfl, rfl⟩
  | cons X Xs ih =>
    intro s ws u hFirst h
    obtain ⟨w, s₁, ws', hHead, hTail, rfl⟩ := mapM_cons_eq_ok.mp h
    obtain ⟨charge, con₁, hCharge, hw, hs₁⟩ := updateCand_eq_ok hFirst hHead
    rw [hs₁] at hTail
    obtain ⟨charges, con', hCharges, hLen, hws, hu⟩ := ih ⟨s.master, con₁⟩ _ _ hFirst hTail
    refine ⟨charge :: charges, con', mapM_cons_eq_ok.mpr
      ⟨charge, con₁, charges, hCharge, hCharges, rfl⟩, by simp [hLen], ?_, hu⟩
    rw [zipWith_cons_cons, hw, hws]

theorem deployPart_eq_ok {i : Nat}
    (hFirst : s.master.first = false) (h : deployPart p i ix s = .ok () u) :
    ∃ charges,
      chargesFor p s.master.start s.master.prevallCand ix s.con = .ok charges u.con ∧
      charges.length = (configurations ix).length ∧
      u.master = { s.master with
        ik := update s.master.ik i (deployed s.master.overallSugg ix
          (carried (update s.master.ik i
            { s.master.ik i with allCand := some ix }) ix charges)) } := by
  obtain ⟨ws, after, hLoop, rfl⟩ := deployPart_ok h
  obtain ⟨charges, con', hCharges, hLen, hws, hAfter⟩ :=
    partLoop_eq_ok _ (modifyTuner i _ s) _ _ hFirst hLoop
  rw [hAfter, hws]
  exact ⟨charges, hCharges, hLen, rfl⟩

/-- **What `deploy` computes**: the tuners are overwritten in place. -/
theorem deployLoop_eq_ok {part : List (List Index)} :
    ∀ (n : Nat) (s u : MasterState σ), n ≤ part.length →
      s.master.first = false →
      (forM (range n) (fun i => do
        let ix ← elemAt part i
        deployPart p i ix) : MasterM σ PUnit) s = .ok () u →
      ∃ charges,
        allCharges p s.master.start s.master.prevallCand part n s.con = .ok charges u.con ∧
        charges.length = n ∧
        (∀ i < n, (charges.getD i []).length = (configurations (part.getD i [])).length) ∧
        u.master = { s.master with
          ik := pass (redeploy s.master.overallSugg part charges) s.master.ik n } := by
  intro n
  induction n with
  | zero =>
    intro s u _ _ h
    cases h
    exact ⟨[], rfl, rfl, fun i hi => absurd hi (by omega), rfl⟩
  | succ n ih =>
    intro s u hn hFirst h
    rw [range_succ, forM_append] at h
    obtain ⟨⟨⟩, s₁, hInit, hLast⟩ := bind_eq_ok.mp h
    obtain ⟨charges, hCharges, hLen, hEach, hMaster⟩ := ih s s₁ (by omega) hFirst hInit
    obtain ⟨⟨⟩, s₂, hBody, hNil⟩ := bind_eq_ok.mp hLast
    cases hNil
    obtain ⟨ix, s₃, hElem, hPart⟩ := bind_eq_ok.mp hBody
    obtain ⟨hIx, hs₃⟩ := elemAt_eq_ok hElem
    rw [hs₃] at hPart
    have hGet : part.getD n [] = ix := by
      rw [getD_eq_getElem?_getD, hIx]
      rfl
    obtain ⟨last, hLastCharges, hLastLen, hLastMaster⟩ :=
      deployPart_eq_ok (by rw [hMaster]; exact hFirst) hPart
    rw [hMaster] at hLastCharges
    refine ⟨charges ++ [last], ?_, by simp [hLen], ?_, ?_⟩
    · unfold allCharges at hCharges ⊢
      rw [range_succ, mapM_append, bind_run_ok hCharges]
      refine bind_eq_ok.mpr ⟨[last], u.con, ?_, rfl⟩
      exact mapM_cons_eq_ok.mpr ⟨last, u.con, [], by rw [hGet]; exact hLastCharges, rfl, rfl⟩
    · intro i hi
      rcases Nat.lt_succ_iff_lt_or_eq.mp hi with hlt | hEq
      · rw [getD_append _ _ _ _ (by omega)]
        exact hEach i hlt
      · rw [hEq, getD_append_right _ _ _ _ (by omega), hLen, hGet]
        simpa using hLastLen
    · rw [hLastMaster, hMaster]
      have hPass : pass (redeploy s.master.overallSugg part (charges ++ [last]))
          s.master.ik n =
          pass (redeploy s.master.overallSugg part charges) s.master.ik n := by
        refine pass_congr _ n fun v i hi => ?_
        unfold redeploy
        rw [getD_append _ _ _ _ (by omega)]
      have hLastGet : (charges ++ [last]).getD n [] = last := by
        rw [getD_append_right _ _ _ _ (by omega), hLen]
        simp
      rw [InPlace.pass, hPass]
      unfold redeploy seen
      rw [hLastGet, hGet]

end Deploy

/-! ## When the work function is carried over -/

/-- Every new part has the sum of the old entries plus the prices of its new
candidates. -/
def CarriesOver (part : List (List Index)) (old : Nat → IndexTuner)
    (charges : List (List ℚ)) (new : Nat → IndexTuner) : Prop :=
  ∀ i < min k part.length,
    (new i).w = some (carried old (part.getD i []) (charges.getD i []))

/-- What the sums must not notice. `own`: the first tuner, asked with its new part, finds its old
entry. `earlier`: for the second part, the first tuner as carried over and the second tuner asked
with its new part give together what the two old tuners gave. -/
structure KeepsEntries (overallSugg : List Index) (part : List (List Index))
    (charges : List (List ℚ)) (old : Nat → IndexTuner) : Prop where
  own : 0 < part.length → ∀ X ∈ configurations (part.getD 0 []),
    entryValue { old 0 with allCand := some (part.getD 0 []) } X =
      entryValue (old 0) X
  earlier : 1 < part.length → ∀ X ∈ configurations (part.getD 1 []),
    entryValue (carriedOver overallSugg part charges old 0) X +
        entryValue { old 1 with allCand := some (part.getD 1 []) } X =
      entryValue (old 0) X + entryValue (old 1) X

theorem carried_eq_iff {ik ik' : Nat → IndexTuner} {ix : List Index}
    {charges : List ℚ} (hLen : charges.length = (configurations ix).length) :
    carried ik ix charges = carried ik' ix charges ↔
      ∀ X ∈ configurations ix, entrySum ik X = entrySum ik' X := by
  unfold carried
  generalize configurations ix = Xs at hLen
  induction Xs generalizing charges with
  | nil => simp
  | cons X Xs ih =>
    cases charges with
    | nil => simp at hLen
    | cons c charges =>
      have hTail : charges.length = Xs.length := by simpa using hLen
      rw [zipWith_cons_cons, zipWith_cons_cons, cons.injEq,
        ih hTail, forall_mem_cons, add_left_inj]

variable {charges : List (List ℚ)} {overallSugg : List Index} {part : List (List Index)}
  {old : Nat → IndexTuner}

/-- The pass in place produces the carried-over tuners exactly when the sums it
sees are the old sums. -/
theorem pass_carriesOver_iff (hLen : ∀ i < min k part.length, (charges.getD i []).length =
      (configurations (part.getD i [])).length) :
    CarriesOver part old charges
        (pass (redeploy overallSugg part charges) old (min k part.length)) ↔
      ∀ i < min k part.length, ∀ X ∈ configurations (part.getD i []),
        entrySum (seen part
          (mixAt (carriedOver overallSugg part charges old) old i) i) X =
          entrySum old X := by
  have hSame : ∀ i u, redeploy overallSugg part charges u i =
      carriedOver overallSugg part charges old i ↔
      carried (seen part u i) (part.getD i []) (charges.getD i []) =
        carried old (part.getD i []) (charges.getD i []) := by
    unfold redeploy carriedOver deployed
    simp
  have hPass := pass_eq_iff (redeploy overallSugg part charges) old
    (carriedOver overallSugg part charges old) (min k part.length)
  constructor
  · intro h i hi
    rw [← carried_eq_iff (hLen i hi), ← hSame]
    refine hPass.mp (fun j hj => ?_) i hi
    rw [pass_of_lt _ _ _ hj]
    have hw := h j hj
    rw [pass_of_lt _ _ _ hj] at hw
    exact (hSame j _).mpr (Option.some.inj hw)
  · intro h i hi
    rw [hPass.mpr (fun j hj => (hSame j _).mpr ((carried_eq_iff (hLen j hj)).mpr (h j hj))) i hi]
    rfl

theorem entrySum_two (ik : Nat → IndexTuner) (X : List Index) :
    entrySum ik X = entryValue (ik 0) X + entryValue (ik 1) X := by
  simp [entrySum, k, range_succ]

theorem sums_iff_keepsEntries :
    (∀ i < min k part.length, ∀ X ∈ configurations (part.getD i []),
      entrySum (seen part
        (mixAt (carriedOver overallSugg part charges old) old i) i) X =
        entrySum old X) ↔
      KeepsEntries overallSugg part charges old := by
  have hZero : ∀ X, entrySum (seen part
      (mixAt (carriedOver overallSugg part charges old) old 0) 0) X =
      entryValue { old 0 with allCand := some (part.getD 0 []) } X + entryValue (old 1) X := by
    intro X
    rw [entrySum_two]
    rfl
  have hOne : ∀ X, entrySum (seen part
      (mixAt (carriedOver overallSugg part charges old) old 1) 1) X =
      entryValue (carriedOver overallSugg part charges old 0) X +
        entryValue { old 1 with allCand := some (part.getD 1 []) } X := by
    intro X
    rw [entrySum_two]
    rfl
  constructor
  · intro h
    refine ⟨fun hPos X hX => ?_, fun hTwo X hX => ?_⟩
    · have hSum := h 0 (by simp [k]; omega) X hX
      exact add_right_cancel hSum
    · have hSum := h 1 (by simp [k]; omega) X hX
      rw [hOne, entrySum_two] at hSum
      exact hSum
  · intro h i hi X hX
    have hCases : i = 0 ∧ 0 < part.length ∨ i = 1 ∧ 1 < part.length := by
      simp only [k] at hi
      omega
    rcases hCases with ⟨rfl, hPos⟩ | ⟨rfl, hTwo⟩
    · rw [hZero, entrySum_two, h.own hPos X hX]
    · rw [hOne, entrySum_two]
      exact h.earlier hTwo X hX

/-- **When `deploy` carries the work function over.** From every state after the first deployment,
for every new partition: if the call returns, every new entry is the sum of the old entries plus
the price the connection charges, exactly when the tuners keep their entries. -/
theorem deploy_carries_iff {σ : Type} (p : Prober σ) (part : List (List Index))
    (s s' : MasterState σ) (hFirst : s.master.first = false) (hRun : deploy p part s = .ok () s') :
    ∃ charges,
      allCharges p s.master.start s.master.prevallCand part (min k part.length)
        s.con = .ok charges s'.con ∧
      (CarriesOver part s.master.ik charges s'.master.ik ↔
        KeepsEntries s.master.overallSugg part charges s.master.ik) := by
  obtain ⟨⟨⟩, s₁, hLoop, hFlag⟩ := bind_eq_ok.mp hRun
  obtain ⟨charges, hCharges, -, hLen, hMaster⟩ :=
    deployLoop_eq_ok _ s s₁ (Nat.min_le_right _ _) hFirst hLoop
  cases hFlag
  refine ⟨charges, hCharges, ?_⟩
  show CarriesOver part s.master.ik charges s₁.master.ik ↔ _
  rw [hMaster, pass_carriesOver_iff hLen, sums_iff_keepsEntries]

/-- A candidate on `t`, as `exprVisit` makes it. -/
def candidateOn (ref : Nat) (column : Char) : Index :=
  Index.new ref (js ['t']) (js [column]) true queriedState.con.dbName

/-- A second query has been added and is about to be deployed. -/
def secondQueryState : MasterState Connection :=
  { queriedState with master.prevallCand := queriedState.master.allcand }

def sameParts : List (List Index) :=
  [[candidateOn 1 'a'], [candidateOn 2 'b']]

def freshParts : List (List Index) :=
  [[candidateOn 5 'a'], [candidateOn 6 'b']]

theorem deploy_carries_sameParts :
    ∃ s', deploy (connectionProber calmServer) sameParts secondQueryState =
        .ok () s' ∧
      CarriesOver sameParts secondQueryState.master.ik [[0], [0]] s'.master.ik := by
  have hRun := run_of_returned
    (show returned (deploy (connectionProber calmServer) sameParts) secondQueryState =
      some () by decide +kernel)
  obtain ⟨charges, hCharges, hIff⟩ := deploy_carries_iff _ _ _ _ (by decide +kernel) hRun
  have hPrices : returned (allCharges (connectionProber calmServer)
      secondQueryState.master.start secondQueryState.master.prevallCand sameParts
      (min k sameParts.length)) secondQueryState.con = some [[0], [0]] := by
    decide +kernel
  have hc := run_of_returned hPrices
  rw [hCharges] at hc
  injection hc with hc
  subst hc
  refine ⟨_, hRun, hIff.mpr ⟨fun _ => ?_, fun _ => ?_⟩⟩
  · decide +kernel
  · decide +kernel

/-- After one query every tuner holds `1` for its only configuration. The next query finds the same
two columns in new objects; the entry of the first tuner is then looked up under its new part, which
its old configurations do not hold, and the new entry is `0` in place of `1`. -/
theorem deploy_forgets_entries :
    returned (allCharges (connectionProber calmServer) secondQueryState.master.start
        secondQueryState.master.prevallCand freshParts (min k freshParts.length))
        secondQueryState.con = some [[0], [0]] ∧
      carried secondQueryState.master.ik [candidateOn 5 'a'] [0] = [1] ∧
      ((finalState (deploy (connectionProber calmServer) freshParts)
        secondQueryState).master.ik 0).w = some [0] := by
  decide +kernel

end PgTuning.Advisor
