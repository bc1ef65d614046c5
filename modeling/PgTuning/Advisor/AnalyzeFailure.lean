import PgTuning.Advisor.WorkFunction

/-!
# `analyze` when probes fail

The first loop of `analyze` skips a configuration whose probe throws, and the later costs move up
one place. The second loop adds the costs one entry after the other and meets the end of the shorter
list in the middle: the call fails with the first entries already charged, with costs that may be
another configuration's. It leaves the tuner alone exactly when no probe fails (it then completes)
or when every cost that did come back is zero.
-/

namespace PgTuning.Advisor

open PgTuning.Lib PgTuning.Lib.Attempt List Nat Triple

/-- The prober answers or throws: `throws i` says for which configurations the probe
fails, `c i` is the cost it answers otherwise, `δ A B` the cost of a change. -/
structure AnswersUnless {σ : Type} (p : Prober σ) (I : σ → Prop) (query : JString)
    (S : List (List Index)) (sugg : List Index) (throws : Nat → Bool) (c : Nat → ℚ)
    (δ : List Index → List Index → ℚ) : Prop where
  answers : ∀ (i : Nat) (conf : List Index), S[i]? = some conf → throws i = false →
    ∀ con, I con → ∃ con', p.whatIf query conf con = .ok (some (c i)) con' ∧ I con'
  throws : ∀ (i : Nat) (conf : List Index), S[i]? = some conf → throws i = true →
    ∀ con, I con → ∃ e con', p.whatIf query conf con = .error e con' ∧ I con'
  changeConfig : ∀ A ∈ S, ∀ B, B ∈ S ∨ B = sugg →
    ∀ con, I con → ∃ con', p.changeConfig A B con = .ok (δ A B) con' ∧ I con'

/-- The costs that come back for the first `k` configurations. -/
def answeredCosts (throws : Nat → Bool) (c : Nat → ℚ) (k : Nat) : List ℚ :=
  ((range k).filter fun i => !throws i).map c

/-- `analyze` completes with one cost for each configuration, or it leaves the work
function and the suggestion as they were. -/
def Atomic {σ : Type} (p : Prober σ) (query : JString) (t : IndexTuner)
    (S : List (List Index)) (w : List ℚ) (con : σ) : Prop :=
  (∃ execTime s₁ s, explainAll p query S (startState t w con) = .ok execTime s₁ ∧
      execTime.length = S.length ∧ analyze p query (startState t w con) = .ok () s) ∨
    ((finalState (analyze p query) (startState t w con)).tuner.w = some w ∧
      (finalState (analyze p query) (startState t w con)).tuner.sugg = t.sugg)

variable (throws : Nat → Bool) (c : Nat → ℚ)

theorem answeredCosts_succ (k : Nat) :
    answeredCosts throws c (k + 1) =
      answeredCosts throws c k ++ (if throws k then [] else [c k]) := by
  unfold answeredCosts
  rw [range_succ, filter_append]
  cases hk : throws k <;> simp [hk]

theorem length_answeredCosts_le (k : Nat) : (answeredCosts throws c k).length ≤ k := by
  have hLe := length_filter_le (fun i => !throws i) (range k)
  rw [length_range] at hLe
  rw [answeredCosts, length_map]
  exact hLe

theorem length_answeredCosts_eq_iff (k : Nat) :
    (answeredCosts throws c k).length = k ↔ ∀ i < k, throws i = false := by
  rw [answeredCosts, length_map]
  constructor
  · intro hLen i hi
    have hAll : ((range k).filter fun i => !throws i).length = (range k).length := by
      rw [hLen, length_range]
    have hTest := length_filter_eq_length_iff.mp hAll i (mem_range.mpr hi)
    simpa using hTest
  · intro hNone
    rw [filter_eq_self.mpr, length_range]
    intro i hi
    rw [hNone i (mem_range.mp hi)]
    rfl

theorem mem_answeredCosts {throws : Nat → Bool} {c : Nat → ℚ} {k : Nat} {x : ℚ} :
    x ∈ answeredCosts throws c k ↔ ∃ i < k, throws i = false ∧ c i = x := by
  unfold answeredCosts
  simp [mem_map, and_assoc]

section Run

variable {σ : Type} {p : Prober σ} {I : σ → Prop} {query : JString}
  {S : List (List Index)} {sugg : List Index} {throws : Nat → Bool} {c : Nat → ℚ}
  {δ : List Index → List Index → ℚ} {t : IndexTuner} {n : Nat} {u : Nat → ℚ}
  {E : TunerState σ → Prop}

section

variable (hAns : AnswersUnless p I query S sugg throws c δ)
include hAns

theorem explainAll_answered :
    Ends (Holds I t n u) (explainAll p query S)
      (fun e s => e = (answeredCosts throws c S.length).map some ∧ Holds I t n u s) E := by
  refine (ends_foldlM (I := fun done (e : List (Option ℚ)) s =>
    e = (answeredCosts throws c done.length).map some ∧ Holds I t n u s) S [] ?_).pre
    fun s hs => ⟨rfl, hs⟩
  rintro pre conf post e hSplit s ⟨he, hTuner, hCon⟩
  have hConf : S[pre.length]? = some conf := by
    rw [hSplit]
    simp
  have hNext : (pre ++ [conf]).length = pre.length + 1 := length_append
  rw [tryCatch_run, hNext, answeredCosts_succ, map_append, ← he]
  cases hThrows : throws pre.length with
  | true =>
    obtain ⟨x, con', hRun, hCon'⟩ := hAns.throws _ conf hConf hThrows s.con hCon
    have hProbe : onCon (p.whatIf query conf) s = .error x { s with con := con' } := by
      unfold onCon zoom
      rw [hRun]
    rw [bind_run_error hProbe]
    exact ⟨(append_nil e).symm, hTuner, hCon'⟩
  | false =>
    obtain ⟨con', hRun, hCon'⟩ := hAns.answers _ conf hConf hThrows s.con hCon
    have hProbe : onCon (p.whatIf query conf) s =
        .ok (some (c pre.length)) { s with con := con' } := by
      unfold onCon zoom
      rw [hRun]
    rw [bind_run_ok hProbe]
    exact ⟨rfl, hTuner, hCon'⟩

omit hAns in
/-- The second loop stops at the end of the costs, with the entries before it charged. -/
theorem charge_stops {costs : List ℚ} (hShort : costs.length < n) :
    Ends (Holds I t n u) (forM (range n) (chargeEntry (costs.map some)))
      (fun _ _ => False)
      (Holds I t n (chargedSoFar u (fun i => costs.getD i 0) costs.length)) := by
  refine ((ends_forM_range (I := fun k s => k ≤ costs.length ∧
    Holds I t n (chargedSoFar u (fun i => costs.getD i 0) k) s) n ?_).pre ?_).post ?_
  · intro k hk s hs
    rcases lt_or_eq_of_le hs.1 with hLt | hEq
    · have hElem : (costs.map some)[k]? = some (some (costs.getD k 0)) := by
        simp [hLt]
      have hPass : Ends _ (chargeEntry (costs.map some) k) _ _ :=
        chargeEntry_ends (I := I) (t := t) (w := u) (c := fun i => costs.getD i 0)
          (E := Holds I t n (chargedSoFar u (fun i => costs.getD i 0) costs.length)) hk hElem
      exact hPass.post (fun _ _ h => ⟨hLt, h⟩) s hs.2
    · have hNone : (costs.map some)[k]? = none := by
        simp [hEq]
      apply ((getW_ends hk).bind_value ?_) s hs.2
      apply bind (R := fun _ _ => False)
      · unfold elemAt
        rw [hNone]
        apply ends_throw
        intro s hs
        rw [← hEq]
        exact hs
      · exact fun _ _ h => h.elim
  · intro s hs
    refine ⟨zero_le _, ?_⟩
    exact hs
  · intro _ s hs
    exact absurd hs.1 (by omega)

/-- With fewer costs than configurations `analyze` fails in its second loop. -/
theorem analyze_stops (hS : t.curCand = some S)
    (hShort : (answeredCosts throws c S.length).length < S.length) :
    Ends (Holds I t S.length u) (analyze p query) (fun _ _ => False)
      (Holds I t S.length (chargedSoFar u
        (fun i => (answeredCosts throws c S.length).getD i 0)
        (answeredCosts throws c S.length).length)) := by
  apply ends_get_bind
  intro s hs
  have hCur : s.tuner.curCand = some S := by
    rw [hs.1]
    exact hS
  have hW : s.tuner.w = some ((range S.length).map u) := by rw [hs.1]
  rw [hCur, hW]
  apply bind_value
  · apply ends_pure
    rintro _ rfl
    exact ⟨rfl, hs⟩
  apply (explainAll_answered hAns).bind_value
  apply bind_value
  · exact ends_pure fun _ h => ⟨rfl, h⟩
  rw [length_map, length_range]
  apply (charge_stops hShort).bind
  exact fun _ _ h => h.elim

/-- Without failures this is the prober of the recurrence. -/
theorem AnswersUnless.answersAll
    (hNone : ∀ i < S.length, throws i = false) : Answers p I query S sugg c δ where
  whatIf i conf hConf :=
    hAns.answers i conf hConf (hNone i (List.getElem?_eq_some_iff.mp hConf).1)
  changeConfig := hAns.changeConfig

end

theorem analyze_no_configurations {w : List ℚ} {con : σ} (hS : t.curCand = some [])
    (hLen : w.length = 0) :
    (finalState (analyze p query) (startState t w con)) = startState t w con := by
  have hNil : w = [] := length_eq_zero_iff.mp hLen
  subst hNil
  have hCur : (startState t ([] : List ℚ) con).tuner.curCand = some [] := hS
  unfold finalState analyze
  rw [bind_run_ok (get_run _), hCur]
  rfl

/-- Charging costs leaves every entry alone exactly if the costs are zero. -/
theorem chargedSoFar_eq_iff (costs : List ℚ) (w : Nat → ℚ) (hLe : costs.length ≤ n) :
    (∀ i < n, chargedSoFar w (fun i => costs.getD i 0) costs.length i = w i) ↔
      ∀ x ∈ costs, x = 0 := by
  unfold chargedSoFar
  constructor
  · intro h x hx
    obtain ⟨i, hi, rfl⟩ := mem_iff_getElem.mp hx
    have hEntry := h i (by omega)
    simpa [hi] using hEntry
  · intro h i _
    split_ifs with hi
    · have hZero : costs.getD i 0 = 0 := by
        have hMem := h costs[i] (getElem_mem hi)
        simpa [hi] using hMem
      show w i + costs.getD i 0 = w i
      rw [hZero, add_zero]
    · rfl

/-- **When `analyze` is atomic**: no probe throws, or every cost that comes back is
zero. -/
theorem analyze_atomic_iff (hAns : AnswersUnless p I query S sugg throws c δ)
    (hS : t.curCand = some S) (hSugg : t.sugg = some sugg) {w : List ℚ}
    (hLen : w.length = S.length) {con : σ} (hCon : I con) :
    Atomic p query t S w con ↔
      (∀ i < S.length, throws i = false) ∨
        ∀ i < S.length, throws i = false → c i = 0 := by
  have hStart := holds_start t hLen hCon
  by_cases hNone : ∀ i < S.length, throws i = false
  · refine iff_of_true ?_ (.inl hNone)
    by_cases hEmpty : S = []
    · subst hEmpty
      have hSame : finalState (analyze p query) (startState t w con) = startState t w con :=
        analyze_no_configurations hS hLen
      exact .inr ⟨by rw [hSame]; rfl, by rw [hSame]; rfl⟩
    · have hAll := hAns.answersAll hNone
      obtain ⟨s, hRun⟩ := analyze_returns hAll hS hSugg hEmpty hLen hCon
      obtain ⟨e, s₁, hExplain, hCosts, -⟩ := (explainAll_answered hAns).returns hStart
      refine .inl ⟨e, s₁, s, hExplain, ?_, hRun⟩
      rw [hCosts, length_map]
      exact (length_answeredCosts_eq_iff throws c S.length).mpr hNone
  · have hNe : (answeredCosts throws c S.length).length ≠ S.length := fun h =>
      hNone ((length_answeredCosts_eq_iff throws c S.length).mp h)
    have hLe := length_answeredCosts_le throws c S.length
    obtain ⟨x, s, hRun, hTuner, -⟩ :=
      (analyze_stops hAns hS (lt_of_le_of_ne hLe hNe)).fails hStart
    have hFinal : finalState (analyze p query) (startState t w con) = s := by
      unfold finalState
      rw [hRun]
    have hOld : some w = some ((range S.length).map fun i => w.getD i 0) :=
      congrArg IndexTuner.w hStart.1
    have hSame : s.tuner.w = some w ↔ ∀ i < S.length, throws i = false → c i = 0 := by
      rw [hTuner, hOld, Option.some.injEq, map_inj_left]
      simp only [mem_range]
      rw [chargedSoFar_eq_iff _ _ hLe]
      constructor
      · intro h i hi hAnswered
        exact h (c i) (mem_answeredCosts.mpr ⟨i, hi, hAnswered, rfl⟩)
      · intro h x hx
        obtain ⟨i, hi, hAnswered, rfl⟩ := mem_answeredCosts.mp hx
        exact h i hi hAnswered
    constructor
    · rintro (⟨_, _, _, -, -, hOk⟩ | ⟨hW, -⟩)
      · rw [hRun] at hOk
        cases hOk
      · rw [hFinal] at hW
        exact .inr (hSame.mp hW)
    · rintro (hAll | hZero)
      · exact absurd hAll hNone
      · right
        rw [hFinal]
        refine ⟨hSame.mpr hZero, ?_⟩
        rw [hTuner]

end Run

/-- A prober on which some configurations cannot be probed. -/
def faultyProber (fails : List Index → Bool) (cost : List Index → ℚ)
    (δ : List Index → List Index → ℚ) : Prober Unit where
  curHypConfig := fun _ => []
  whatIf := fun _ conf => if fails conf then throw .sql else pure (some (cost conf))
  changeConfig := fun A B => pure (δ A B)

/-- The probe of `customers` fails, but the query is free. -/
theorem analyze_atomic_free :
    Atomic (faultyProber (fun conf => conf == [customersIndex]) (fun _ => 0) evenChange)
      (js ['q']) twoTuner twoConfigurations [0, 10] () := by
  let prober := faultyProber (fun conf => conf == [customersIndex]) (fun _ => 0) evenChange
  have hAns : AnswersUnless prober (fun _ => True) (js ['q']) twoConfigurations [ordersIndex]
      (fun i => twoConfigurations.getD i [] == [customersIndex]) (fun _ => 0) evenChange := by
    have hRead : ∀ (i : Nat) (conf : List Index), twoConfigurations[i]? = some conf →
        twoConfigurations.getD i [] = conf := by
      intro i conf hConf
      rw [getD_eq_getElem?_getD, hConf]
      rfl
    refine ⟨?_, ?_, ?_⟩
    · intro i conf hConf hAnswers con _
      rw [hRead i conf hConf] at hAnswers
      have hProbe : prober.whatIf (js ['q']) conf = pure (some 0) :=
        if_neg (ne_true_of_eq_false hAnswers)
      exact ⟨con, by rw [hProbe]; rfl, trivial⟩
    · intro i conf hConf hThrows con _
      rw [hRead i conf hConf] at hThrows
      have hProbe : prober.whatIf (js ['q']) conf = throw .sql := if_pos hThrows
      exact ⟨.sql, con, by rw [hProbe]; rfl, trivial⟩
    · intro A _ B _ con _
      exact ⟨con, rfl, trivial⟩
  exact (analyze_atomic_iff hAns rfl rfl rfl trivial).mpr (.inr fun _ _ _ => rfl)

/-- A server that refuses to create the index on `customers`, and prints the cost 1. -/
def refusingServer : Server where
  fails := fun sql _ => sql == (Stmt.createIndex true customersIndex.defaultName
    customersIndex.tableName customersIndex.getColumnNames).sql
  explain := fun _ _ => some 1

/-- The probe of `customers` throws; the call fails with the entry of `orders` charged. -/
theorem analyze_charges_half :
    (finalState (analyze (connectionProber refusingServer) (js ['q']))
        (startState twoTuner [0, 10] freshConnection)).tuner.w = some [1, 10] ∧
      ¬ Atomic (connectionProber refusingServer) (js ['q']) twoTuner twoConfigurations
        [0, 10] freshConnection := by
  have hW : (finalState (analyze (connectionProber refusingServer) (js ['q']))
      (startState twoTuner [0, 10] freshConnection)).tuner.w = some [1, 10] := by
    decide +kernel
  have hFails : returned (analyze (connectionProber refusingServer) (js ['q']))
      (startState twoTuner [0, 10] freshConnection) = none := by
    decide +kernel
  refine ⟨hW, ?_⟩
  rintro (⟨_, _, s, -, -, hRun⟩ | ⟨hSame, -⟩)
  · unfold returned at hFails
    rw [hRun] at hFails
    cases hFails
  · rw [hW] at hSame
    revert hSame
    decide

end PgTuning.Advisor
