import PgTuning.Advisor.Tuner
import PgTuning.Lib.MinPlus

/-!
# The work-function recurrence of `analyze`

With `c i` the cost of the query under configuration `S i` and `δ` the cost of changing
configurations, the work function of online tuning is updated by

    w' i = min over j of (w j + c j + δ (S j) (S i)).

`analyze` misses it twice: its inner loop charges `changeConfig(S i, S j)`, the change in the other
direction, and it writes entry `i` through a shallow copy, so later entries are relaxed against
entries that are already new. What it computes is a `MinPlus.sweep`; when that is the recurrence is
settled by `Lib/MinPlus.lean`. `Answers` says that the prober answers every probe the call makes,
with these costs, from every state the probes lead to.
-/

namespace PgTuning.Advisor

open PgTuning.Lib PgTuning.Lib.Attempt PgTuning.Lib.MinPlus PgTuning.Lib.InPlace List Function

/-- The prober answers: `c i` for the query under `S[i]`, and `δ A B` for a
change from a configuration of `S` to one of `S` or to `sugg`. -/
structure Answers {σ : Type} (p : Prober σ) (I : σ → Prop) (query : JString)
    (S : List (List Index)) (sugg : List Index) (c : Nat → ℚ)
    (δ : List Index → List Index → ℚ) : Prop where
  whatIf : ∀ (i : Nat) (conf : List Index), S[i]? = some conf →
    ∀ con, I con → ∃ con', p.whatIf query conf con = .ok (some (c i)) con' ∧ I con'
  changeConfig : ∀ A ∈ S, ∀ B, B ∈ S ∨ B = sugg →
    ∀ con, I con → ∃ con', p.changeConfig A B con = .ok (δ A B) con' ∧ I con'

/-- The matrix of changes between the configurations of a tuner. -/
def changeMatrix (S : List (List Index)) (δ : List Index → List Index → ℚ)
    (i j : Nat) : ℚ := δ (S.getD i []) (S.getD j [])

def charged (w : List ℚ) (c : Nat → ℚ) (i : Nat) : ℚ := w.getD i 0 + c i

section Run

variable {σ : Type} {p : Prober σ} {I : σ → Prop} {query : JString}
  {S : List (List Index)} {sugg : List Index} {c : Nat → ℚ}
  {δ : List Index → List Index → ℚ}

/-- The tuner is `t` with the work function `u`, and the connection is in a
state from which the prober answers. -/
def Holds (I : σ → Prop) (t : IndexTuner) (n : Nat) (u : Nat → ℚ)
    (s : TunerState σ) : Prop :=
  s.tuner = { t with w := some ((range n).map u) } ∧ I s.con

variable {t : IndexTuner} {n : Nat} {u : Nat → ℚ} {E : TunerState σ → Prop}

theorem getW_ends {j : Nat} (hj : j < n) :
    Ends (Holds I t n u) (getW j) (fun x s => x = u j ∧ Holds I t n u s) E := by
  rintro s ⟨hTuner, hCon⟩
  unfold getW
  rw [bind_run_ok (get_run s)]
  simp [nonNull, elemAt, hj, Holds, hTuner, hCon]

theorem range_map_set (n : Nat) (u : Nat → ℚ) (i : Nat) (x : ℚ) :
    ((range n).map u).set i x = (range n).map (update u i x) := by
  apply ext_getElem
  · simp
  · intro j h₁ h₂
    simp only [getElem_set, getElem_map, getElem_range]
    split_ifs with hij
    · rw [hij, update_self]
    · rw [update_of_ne (Ne.symm hij)]

theorem setW_ends (i : Nat) (x : ℚ) :
    Ends (Holds I t n u) (setW i x) (fun _ => Holds I t n (update u i x)) E := by
  refine ends_modify ?_
  rintro s ⟨hTuner, hCon⟩
  refine ⟨?_, hCon⟩
  simp only [hTuner, Option.map_some, range_map_set]

variable {i : Nat} {e : List (Option ℚ)} {con : σ} {w : List ℚ}

theorem elemAt_ends {τ α : Type} {P : τ → Prop} {F : τ → Prop} {xs : List α} {a : α}
    (h : xs[i]? = some a) : Ends P (elemAt (σ := τ) xs i) (fun b s => b = a ∧ P s) F := by
  intro s hs
  unfold elemAt
  rw [h]
  exact ⟨rfl, hs⟩

theorem unbox_some_ends {τ : Type} {P F : τ → Prop} (x : ℚ) :
    Ends P (unbox (σ := τ) (some x)) (fun y s => y = x ∧ P s) F :=
  ends_pure fun _ hs => ⟨rfl, hs⟩

theorem onCon_ends {α : Type} {m : Attempt JavaException σ α} {a : α}
    (h : ∀ con, I con → ∃ con', m con = .ok a con' ∧ I con') :
    Ends (Holds I t n u) (onCon m) (fun b s => b = a ∧ Holds I t n u s) E := by
  rintro s ⟨hTuner, hCon⟩
  obtain ⟨con', hRun, hCon'⟩ := h s.con hCon
  unfold onCon zoom
  rw [hRun]
  exact ⟨rfl, hTuner, hCon'⟩

/-! ## The loops -/

theorem explainAll_ends (hAns : Answers p I query S sugg c δ) :
    Ends (Holds I t n u) (explainAll p query S)
      (fun e s => e = (range S.length).map (fun i => some (c i)) ∧
        Holds I t n u s) E := by
  refine (ends_foldlM (I := fun done (e : List (Option ℚ)) s =>
    e = (range done.length).map (fun i => some (c i)) ∧ Holds I t n u s) S [] ?_).pre
    fun s hs => ⟨rfl, hs⟩
  rintro pre conf post e hSplit s ⟨he, hs⟩
  have hConf : S[pre.length]? = some conf := by
    rw [hSplit]
    simp
  refine (Ends.tryCatch (F := fun _ => False) ?_ fun _ s hs => hs.elim) s hs
  refine (onCon_ends (hAns.whatIf pre.length conf hConf)).bind_value (ends_pure fun s hs => ⟨?_, hs⟩)
  rw [he]
  simp [range_succ]

/-- After `k` charges the first `k` entries include the cost of the query. -/
def chargedSoFar (w : Nat → ℚ) (c : Nat → ℚ) (k i : Nat) : ℚ :=
  if i < k then w i + c i else w i

theorem chargeEntry_ends {w : Nat → ℚ} {k : Nat} (hk : k < n) (hElem : e[k]? = some (some (c k))) :
    Ends (Holds I t n (chargedSoFar w c k)) (chargeEntry e k)
      (fun _ => Holds I t n (chargedSoFar w c (k + 1))) E := by
  have hStep : update (chargedSoFar w c k) k
      (chargedSoFar w c k k + c k) = chargedSoFar w c (k + 1) := by
    funext i
    by_cases hik : i = k
    · subst hik
      simp [chargedSoFar]
    · rw [update_of_ne hik]
      unfold chargedSoFar
      by_cases hlt : i < k
      · rw [if_pos hlt, if_pos (by omega)]
      · rw [if_neg hlt, if_neg (by omega)]
  refine (getW_ends hk).bind_value ?_
  refine (elemAt_ends hElem).bind_value ?_
  rw [← hStep]
  exact setW_ends k _

theorem chargedSoFar_zero (w c : Nat → ℚ) : chargedSoFar w c 0 = w := by
  funext i
  simp [chargedSoFar]

theorem charge_ends {w : Nat → ℚ} (he : e = (range n).map (fun i => some (c i))) :
    Ends (Holds I t n w) (forM (range n) (chargeEntry e))
      (fun _ => Holds I t n (fun i => w i + c i)) E := by
  have hAll : (range n).map (chargedSoFar w c n) =
      (range n).map fun i => w i + c i := by
    refine map_congr_left fun i hi => ?_
    rw [chargedSoFar, if_pos (mem_range.mp hi)]
  have hLoop := ends_forM_range (X := fun _ => E) (I := fun k => Holds I t n (chargedSoFar w c k))
    (f := chargeEntry e) n fun k hk => chargeEntry_ends hk (by simp [he, hk])
  refine hLoop.post fun _ s hs => ⟨?_, hs.2⟩
  rw [hs.1, hAll]

theorem getElem?_getD {S : List (List Index)} (hi : i < S.length) : S[i]? = some (S.getD i []) := by
  rw [getD_eq_getElem?_getD, getElem?_eq_getElem hi]
  rfl

theorem getD_mem {S : List (List Index)} (hi : i < S.length) : S.getD i [] ∈ S := by
  rw [getD_eq_getElem?_getD, getElem?_eq_getElem hi]
  exact getElem_mem hi

variable (hAns : Answers p I query S sugg c δ)
include hAns

theorem relaxEntry_ends (hi : i < S.length) :
    Ends (Holds I t S.length u) (relaxEntry p S S.length i)
      (fun _ => Holds I t S.length
        (update u i (relaxAt S.length (changeMatrix S δ) u i))) E := by
  refine (getW_ends hi).bind_value ?_
  refine Triple.bind_value ?_ (setW_ends i _)
  refine (ends_foldlM_range (I := fun k mini s =>
    mini = runMin (fun j => u j + changeMatrix S δ i j) (u i) (range k) ∧
      Holds I t S.length u s) S.length (u i) ?_).pre fun s hs => ⟨rfl, hs⟩
  rintro k hk mini s ⟨hMini, hs⟩
  refine ((getW_ends hk).bind_value ?_) s hs
  refine (elemAt_ends (getElem?_getD hi)).bind_value ?_
  refine (elemAt_ends (getElem?_getD hk)).bind_value ?_
  refine (onCon_ends (hAns.changeConfig _ (getD_mem hi) _ (Or.inl (getD_mem hk)))).bind_value ?_
  refine ends_pure fun s hs => ⟨?_, hs⟩
  rw [hMini, range_succ]
  simp [runMin, changeMatrix]

theorem relax_ends (a : Nat → ℚ) :
    Ends (Holds I t S.length a)
      (forM (range S.length) (relaxEntry p S S.length))
      (fun _ => Holds I t S.length (sweep S.length (changeMatrix S δ) a S.length)) E :=
  ends_forM_range (I := fun k => Holds I t S.length (sweep S.length (changeMatrix S δ) a k))
    S.length fun _ hk => relaxEntry_ends hAns hk

/-- Every score has a value. -/
def AllBoxed (n : Nat) (e : List (Option ℚ)) : Prop :=
  ∀ i < n, ∃ x, e[i]? = some (some x)

theorem scoreEntry_ends (hSugg : t.sugg = some sugg)
    (he : AllBoxed S.length e) (hi : i < S.length) :
    Ends (Holds I t S.length u) (scoreEntry p S e i)
      (fun e' s => AllBoxed S.length e' ∧ Holds I t S.length u s) E := by
  obtain ⟨x, hx⟩ := he i hi
  refine (elemAt_ends (getElem?_getD hi)).bind_value ?_
  refine ends_get_bind fun s hs => ?_
  have hField : s.tuner.sugg = some sugg := by
    rw [hs.1]
    exact hSugg
  refine Triple.bind_value (R := Holds I t S.length u) (a := sugg) ?_ ?_
  · rw [hField]
    refine ends_pure ?_
    rintro _ rfl
    exact ⟨rfl, hs⟩
  · refine (onCon_ends (hAns.changeConfig _ (getD_mem hi) _ (Or.inr rfl))).bind_value ?_
    refine (elemAt_ends hx).bind_value ?_
    refine (getW_ends hi).bind_value ?_
    refine (setW_ends i (u i)).bind fun _ => ends_pure fun s hs => ?_
    rw [update_eq_self] at hs
    refine ⟨fun j hj => ?_, hs⟩
    rw [getElem?_set]
    by_cases hij : i = j
    · have hLen : i < e.length := (List.getElem?_eq_some_iff.mp hx).1
      exact ⟨_, by rw [if_pos hij, if_pos hLen]⟩
    · rw [if_neg hij]
      exact he j hj

theorem score_ends (hSugg : t.sugg = some sugg) (he : AllBoxed S.length e) :
    Ends (Holds I t S.length u)
      ((range S.length).foldlM (scoreEntry p S) e)
      (fun e' s => AllBoxed S.length e' ∧ Holds I t S.length u s) E := by
  refine (ends_foldlM_range (I := fun _ e s => AllBoxed S.length e ∧ Holds I t S.length u s)
    S.length e ?_).pre fun s hs => ⟨he, hs⟩
  exact fun k hk e s hs => scoreEntry_ends hAns hSugg hs.1 hk s hs.2

/-- The work function is `u`, whatever the other fields are. -/
def HoldsW (n : Nat) (u : Nat → ℚ) (s : TunerState σ) : Prop :=
  s.tuner.w = some ((range n).map u)

omit hAns in
/-- Finding the least score leaves the tuner alone, and fails only when there
is no configuration at all. -/
theorem bestScore_ends {P : TunerState σ → Prop} (he : AllBoxed n e) :
    Ends P (bestScore e n) (fun _ => P) (fun s => n = 0 ∧ P s) := by
  rcases Nat.eq_zero_or_pos n with hn | hn
  · refine Triple.bind (R := fun _ => P) ?_ fun first => ?_
    · unfold elemAt
      cases e[0]? with
      | none => exact ends_throw fun s hs => ⟨hn, hs⟩
      | some a => exact ends_pure fun s hs => hs
    · refine Triple.bind (R := fun _ => P) ?_ fun first => ?_
      · exact (unbox_keeps first).orElse fun s hs => ⟨hn, hs⟩
      · rw [hn]
        exact ends_pure fun s hs => hs
  · obtain ⟨x, hx⟩ := he 0 hn
    refine (elemAt_ends hx).bind_value ?_
    refine ends_foldlM_const _ x fun i hi m => ?_
    obtain ⟨y, hy⟩ := he i (mem_range.mp hi)
    refine (elemAt_ends hy).bind_value ?_
    exact ends_pure fun s hs => hs

omit hAns in
theorem suggestEntry_ends (he : AllBoxed S.length e) (mini : ℚ) (hi : i < S.length) :
    Ends (HoldsW (σ := σ) n u) (suggestEntry S e mini i) (fun _ => HoldsW n u) E := by
  obtain ⟨x, hx⟩ := he i hi
  refine (elemAt_ends hx).bind_value ?_
  refine (unbox_some_ends x).bind_value ?_
  split_ifs with hEq
  · refine (elemAt_ends (getElem?_getD hi)).bind_value ?_
    exact ends_modify fun s hs => hs
  · exact ends_pure fun s hs => hs

variable (hS : t.curCand = some S) (hSugg : t.sugg = some sugg)
include hS hSugg

/-- **What `analyze` computes.**  The new work function is the sweep of the
charged one; the call returns unless there is no configuration. -/
theorem analyze_ends (w : Nat → ℚ) :
    Ends (Holds I t S.length w) (analyze p query)
      (fun _ => HoldsW S.length (sweep S.length (changeMatrix S δ) (fun i => w i + c i) S.length))
      (fun s => S.length = 0 ∧ HoldsW S.length
        (sweep S.length (changeMatrix S δ) (fun i => w i + c i) S.length) s) := by
  refine ends_get_bind fun s hs => ?_
  have hCur : s.tuner.curCand = some S := by
    rw [hs.1]
    exact hS
  have hW : s.tuner.w = some ((range S.length).map w) := by rw [hs.1]
  refine Triple.bind_value (R := Holds I t S.length w) (a := S) ?_ ?_
  · rw [hCur]
    refine ends_pure ?_
    rintro _ rfl
    exact ⟨rfl, hs⟩
  refine (explainAll_ends hAns).bind_value ?_
  rw [hW]
  refine Triple.bind_value (ends_pure fun _ h => ⟨rfl, h⟩) ?_
  simp only [length_map, length_range]
  refine (charge_ends rfl).bind fun _ => ?_
  refine (relax_ends hAns _).bind fun _ => ?_
  refine Triple.bind (score_ends hAns hSugg ?_) fun e => ?_
  · intro i hi
    exact ⟨c i, by simp [hi]⟩
  · intro s' hs'
    obtain ⟨he, hs'⟩ := hs'
    have hTail := (bestScore_ends (P := HoldsW (σ := σ) S.length
      (sweep S.length (changeMatrix S δ) (fun i => w i + c i) S.length))
      he).bind fun mini => ends_forM_const (range S.length)
        fun i hi => suggestEntry_ends he mini (mem_range.mp hi)
    exact hTail s' (by unfold HoldsW; rw [hs'.1])

/-- The state in which the tuner `t` with work function `w` starts a call. -/
def startState (t : IndexTuner) (w : List ℚ) (con : σ) : TunerState σ :=
  ⟨{ t with w := some w }, con⟩

omit hAns hS hSugg in
theorem holds_start (t : IndexTuner) (hLen : w.length = n) (hCon : I con) :
    Holds I t n (fun i => w.getD i 0) (startState t w con) := by
  refine ⟨?_, hCon⟩
  have hList : (range n).map (fun i => w.getD i 0) = w := by
    apply ext_getElem
    · simp [hLen]
    · intro i h₁ h₂
      simp [h₂]
  rw [hList]
  rfl

theorem analyze_stores (hLen : w.length = S.length) (hCon : I con) :
    (finalState (analyze p query) (startState t w con)).tuner.w =
      some ((range S.length).map
        (sweep S.length (changeMatrix S δ) (charged w c) S.length)) := by
  have hEnds := (analyze_ends hAns hS hSugg fun i => w.getD i 0).orElse fun _ hs => hs.2
  exact hEnds.finalState (holds_start t hLen hCon)

theorem analyze_returns (hNe : S ≠ []) (hLen : w.length = S.length) (hCon : I con) : ∃ s, analyze p query (startState t w con) = .ok () s := by
  have h := analyze_ends hAns hS hSugg (fun i => w.getD i 0) _ (holds_start t hLen hCon)
  revert h
  cases analyze p query (startState t w con) with
  | ok a s => exact fun _ => ⟨s, rfl⟩
  | error e s =>
    intro hs
    exact absurd (length_eq_zero_iff.mp hs.1) hNe

end Run

/-! ## The recurrence -/

/-- After `analyze`, every stored entry `i` is the least
`w j + c j + δ (S j) (S i)` of the old vector. -/
def MeetsRecurrence {σ : Type} (p : Prober σ) (query : JString) (t : IndexTuner)
    (S : List (List Index)) (c : Nat → ℚ) (δ : List Index → List Index → ℚ)
    (w : List ℚ) (con : σ) : Prop :=
  ∃ w', (finalState (analyze p query) (startState t w con)).tuner.w = some w' ∧
    w'.length = S.length ∧
    IsTransition S.length (changeMatrix S δ) (charged w c) fun i => w'.getD i 0

section Recurrence

variable {σ : Type} {p : Prober σ} {I : σ → Prop} {query : JString}
  {S : List (List Index)} {sugg : List Index} {c : Nat → ℚ}
  {δ : List Index → List Index → ℚ} {t : IndexTuner} (hAns : Answers p I query S sugg c δ)
  (hS : t.curCand = some S) (hSugg : t.sugg = some sugg)
include hAns hS hSugg

theorem meetsRecurrence_iff_sweep {w : List ℚ}
    (hLen : w.length = S.length) {con : σ} (hCon : I con) :
    MeetsRecurrence p query t S c δ w con ↔
      IsTransition S.length (changeMatrix S δ) (charged w c)
        (sweep S.length (changeMatrix S δ) (charged w c) S.length) := by
  have hStored := analyze_stores hAns hS hSugg hLen hCon
  have hRead : ∀ i < S.length, ((range S.length).map
      (sweep S.length (changeMatrix S δ) (charged w c) S.length)).getD i 0 =
      sweep S.length (changeMatrix S δ) (charged w c) S.length i := by
    intro i hi
    simp [hi]
  constructor
  · rintro ⟨w', hw', -, hT⟩
    rw [hStored] at hw'
    injection hw' with hw'
    rw [← hw'] at hT
    exact hT.congr (fun _ _ => rfl) hRead
  · intro hT
    exact ⟨_, hStored, by simp, hT.congr (fun _ _ => rfl) fun j hj => (hRead j hj).symm⟩

/-- The recurrence holds for every old work function exactly when the matrix of
changes is reversible. -/
theorem meetsRecurrence_forall_iff {con : σ} (hCon : I con) :
    (∀ w : List ℚ, w.length = S.length → MeetsRecurrence p query t S c δ w con) ↔
      Reversible S.length (changeMatrix S δ) := by
  rw [← sweep_isTransition_forall_iff]
  constructor
  · intro h a
    -- The work function that, once charged, is `a`.
    have hLen : ((range S.length).map fun i => a i - c i).length = S.length := by
      simp
    have hVec : ∀ j < S.length,
        charged ((range S.length).map fun i => a i - c i) c j = a j := by
      intro j hj
      simp [charged, hj]
    have hT := (meetsRecurrence_iff_sweep hAns hS hSugg hLen hCon).mp (h _ hLen)
    exact hT.congr hVec fun j hj => sweep_congr hVec _ le_rfl j hj
  · intro h w hLen
    exact (meetsRecurrence_iff_sweep hAns hS hSugg hLen hCon).mpr (h _)

/-- **When `analyze` meets the work-function recurrence.** For one old vector exactly when relaxing
each entry against the *transition* of the earlier entries gives its transition; for every old vector
exactly when the changes are reversible, which for changes that cost nothing in place means that they
are symmetric and obey the triangle inequality through every configuration handled before the later
one. -/
theorem analyze_recurrence_iff (con : σ) (hCon : I con) :
    (S ≠ [] → ∀ w : List ℚ, w.length = S.length →
      ∃ s, analyze p query (startState t w con) = .ok () s) ∧
    (∀ w : List ℚ, w.length = S.length →
      (MeetsRecurrence p query t S c δ w con ↔
        ∀ i < S.length, relaxAt S.length (changeMatrix S δ)
          (mixAt (transition S.length (changeMatrix S δ) (charged w c)) (charged w c) i) i =
          transition S.length (changeMatrix S δ) (charged w c) i)) ∧
    ((∀ w : List ℚ, w.length = S.length → MeetsRecurrence p query t S c δ w con) ↔
      Reversible S.length (changeMatrix S δ)) ∧
    ((∀ A ∈ S, δ A A = 0) →
      (Reversible S.length (changeMatrix S δ) ↔
        (∀ i < S.length, ∀ k < S.length,
          changeMatrix S δ i k = changeMatrix S δ k i) ∧
        ∀ i < S.length, ∀ k < S.length, ∀ j < max i k,
          changeMatrix S δ i k ≤ changeMatrix S δ i j + changeMatrix S δ j k)) := by
  refine ⟨fun hNe w hLen => analyze_returns hAns hS hSugg hNe hLen hCon, ?_,
    meetsRecurrence_forall_iff hAns hS hSugg hCon, ?_⟩
  · intro w hLen
    rw [meetsRecurrence_iff_sweep hAns hS hSugg hLen hCon, sweep_isTransition_iff]
  · intro hDiag
    exact reversible_iff_of_diag fun i hi => hDiag _ (getD_mem hi)

end Recurrence

/-! ## A tuner whose changes are not symmetric -/

/-- A server on which creating `customersIndex` costs 5, creating `ordersIndex`
costs 1, and every other query is free. -/
def skewServer : Server where
  fails := fun _ _ => false
  explain := fun sql con =>
    if sql = js "explain hypothetical ".toList ++ creationQuery customersIndex then
      if ⟨customersIndex.defaultName, true⟩ ∈ con.present then some 0 else some 5
    else if sql = js "explain hypothetical ".toList ++ creationQuery ordersIndex then
      if ⟨ordersIndex.defaultName, true⟩ ∈ con.present then some 0 else some 1
    else some 0

/-- The cost a prober returns for a change, from a given state. -/
def probedChange {σ : Type} (p : Prober σ) (con : σ) (A B : List Index) : ℚ :=
  match p.changeConfig A B con with
  | .ok d _ => d
  | .error _ _ => 0

def twoConfigurations : List (List Index) := [[ordersIndex], [customersIndex]]

def twoTuner : IndexTuner where
  allCand := some [ordersIndex]
  curCand := some twoConfigurations
  w := none
  sugg := some [ordersIndex]

/-- The old vector is `(0, 10)` and the query is free. The recurrence asks for
`min (10 + 0) (0 + 5) = 5` in the second entry; `analyze` stores 1, the price of the way back. -/
theorem analyze_misses_recurrence :
    ¬ MeetsRecurrence (connectionProber skewServer) (js ['q']) twoTuner
      twoConfigurations (fun _ => 0)
      (probedChange (connectionProber skewServer) freshConnection) [0, 10]
      freshConnection := by
  rintro ⟨w', hStored, -, hT⟩
  have hRun : (finalState (analyze (connectionProber skewServer) (js ['q']))
      (startState twoTuner [0, 10] freshConnection)).tuner.w = some [0, 1] := by
    decide +kernel
  rw [hRun] at hStored
  injection hStored with hw
  obtain ⟨j, hj, hEq⟩ := (hT 1 (by decide)).1
  rw [← hw] at hEq
  have hj' : j = 0 ∨ j = 1 := by
    have : j < 2 := hj
    omega
  rcases hj' with h | h
  · rw [h] at hEq
    revert hEq
    decide +kernel
  · rw [h] at hEq
    revert hEq
    decide +kernel

def tableProber (cost : List Index → ℚ) (δ : List Index → List Index → ℚ) :
    Prober Unit where
  curHypConfig := fun _ => []
  whatIf := fun _ conf => pure (some (cost conf))
  changeConfig := fun A B => pure (δ A B)

def evenChange (A B : List Index) : ℚ := if A = B then 0 else 3

theorem analyze_recurrence_even :
    MeetsRecurrence (tableProber (fun _ => 0) evenChange) (js ['q']) twoTuner
      twoConfigurations (fun _ => 0) evenChange [0, 10] () := by
  have hAns : Answers (tableProber (fun _ => 0) evenChange) (fun _ => True)
      (js ['q']) twoConfigurations [ordersIndex] (fun _ => 0) evenChange :=
    ⟨fun _ _ _ con _ => ⟨con, rfl, trivial⟩, fun _ _ _ _ con _ => ⟨con, rfl, trivial⟩⟩
  have h := analyze_recurrence_iff (t := twoTuner) hAns rfl rfl () trivial
  refine h.2.2.1.mpr ((h.2.2.2 ?_).mpr ?_) [0, 10] rfl
  · intro A _
    exact if_pos rfl
  · refine ⟨?_, ?_⟩
    · intro i _ k _
      unfold changeMatrix evenChange
      by_cases hEq : twoConfigurations.getD i [] = twoConfigurations.getD k []
      · rw [if_pos hEq, if_pos hEq.symm]
      · rw [if_neg hEq, if_neg (Ne.symm hEq)]
    · intro i _ k _ j _
      unfold changeMatrix evenChange
      by_cases hij : twoConfigurations.getD i [] = twoConfigurations.getD j []
      · rw [hij, if_pos rfl]
        linarith
      · have hNonneg : (0 : ℚ) ≤
            if twoConfigurations.getD j [] = twoConfigurations.getD k [] then 0
            else 3 := by
          split <;> norm_num
        split <;> linarith

end PgTuning.Advisor
