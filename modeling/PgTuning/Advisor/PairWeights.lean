import PgTuning.Advisor.Calm
import PgTuning.Advisor.Partitions
import PgTuning.Advisor.Votes
import PgTuning.Advisor.WorkFunction

/-!
# How the pairs of candidates are weighed

`makeParitions` weighs every pair of candidates over the last queries. `calculateWt` takes the two
candidates out of the list and appends them again, once for each query of its window, in the very
list whose positions the double loop of its caller counts. The window is bounded by the number of
candidates instead of the number of queries.

`weighCalls` is the double loop with a record of every call. The calls are the ones meant exactly
when there is no window, or nothing to weigh, or just two candidates, which end up where they were,
and enough queries.
-/

namespace PgTuning.Advisor

open PgTuning.Lib PgTuning.Lib.Attempt List Nat

namespace Partitioner

/-! ## The calls -/

/-- A call of `calculateWt` for the edge `(i, j)`: its arguments, its result, and the
list of candidates before and after. -/
structure WeighCall where
  i : Nat
  j : Nat
  left : Index
  right : Index
  weight : ℚ
  before : List Index
  after : List Index

/-- The pass of `edges` for the candidates at `i` and `j`. -/
def weighCall (pr : Partitioner) (env : Environment) (workBench : List JString) (i : Nat)
    (acc : List WeighCall × List Index) (j : Nat) :
    JavaM (List WeighCall × List Index) := do
  let a ← elemAt acc.2 i
  let b ← elemAt acc.2 j
  let (x, cand) ← pr.calculateWt env workBench a b acc.2
  return (acc.1 ++ [⟨i, j, a, b, x, acc.2, cand⟩], cand)

/-- `edges`, with its calls of `calculateWt`. -/
def weighCalls (pr : Partitioner) (env : Environment) (workBench : List JString) (n : Nat)
    (cand : List Index) : JavaM (List WeighCall × List Index) :=
  (range n).foldlM (fun acc i =>
    (range' (i + 1) (n - (i + 1))).foldlM (pr.weighCall env workBench i) acc) ([], cand)

/-- The program is its recorded copy with the record left out. -/
theorem edges_eq_weighCalls (pr : Partitioner) (env : Environment)
    (workBench : List JString) (n : Nat) (cand : List Index) :
    pr.edges env workBench n cand =
      (fun r => (r.1.map fun c => Edge.new c.i c.j c.weight, r.2)) <$>
        pr.weighCalls env workBench n cand := by
  refine foldlM_erase (fun r : List WeighCall × List Index =>
    (r.1.map fun c => Edge.new c.i c.j c.weight, r.2)) ?_ (range n) ([], cand)
  intro acc i
  refine foldlM_erase (fun r : List WeighCall × List Index =>
    (r.1.map fun c => Edge.new c.i c.j c.weight, r.2)) ?_ _ acc
  simp [weighCall]

/-- The pairs `(i, j)` of the double loop, up to row `k`. -/
def pairsTo (n k : Nat) : List (Nat × Nat) :=
  (range k).flatMap fun i => (range' (i + 1) (n - (i + 1))).map fun j => (i, j)

theorem mem_pairsTo {n i j : Nat} : (i, j) ∈ pairsTo n n ↔ i < j ∧ j < n := by
  unfold pairsTo
  simp only [mem_flatMap, mem_range, mem_map, mem_range'_1]
  constructor
  · rintro ⟨i', hi', j', hj', hEq⟩
    cases hEq
    omega
  · rintro ⟨hij, hj⟩
    exact ⟨i, by omega, j, by omega, rfl⟩

theorem nodup_pairsTo (n k : Nat) : (pairsTo n k).Nodup := by
  unfold pairsTo
  rw [nodup_flatMap]
  constructor
  · intro i _
    exact List.Nodup.map (fun _ _ h => (Prod.mk.inj h).2) nodup_range'
  · apply List.Pairwise.imp _ nodup_range
    intro i i' hNe
    simp only [disjoint_left, mem_map]
    rintro _ ⟨j, -, rfl⟩ ⟨j', -, hEq⟩
    exact hNe (Prod.mk.inj hEq).1.symm

/-- A call that weighs the two candidates its edge names and leaves the list alone. -/
structure WeighCall.Right (cand : List Index) (c : WeighCall) : Prop where
  left : cand[c.i]? = some c.left
  right : cand[c.j]? = some c.right
  before : c.before = cand
  after : c.after = cand

/-- The double loop comes through, with one call for each pair, each of them right. -/
def WeighsPairs (pr : Partitioner) (env : Environment) (workBench : List JString)
    (cand : List Index) (con : Connection) : Prop :=
  ∃ calls con', pr.weighCalls env workBench cand.length cand con = .ok (calls, cand) con' ∧
    pr.edges env workBench cand.length cand con =
      .ok (calls.map fun c => Edge.new c.i c.j c.weight, cand) con' ∧
    (calls.map fun c => (c.i, c.j)).Nodup ∧
    (∀ i j, (i, j) ∈ (calls.map fun c => (c.i, c.j)) ↔ i < j ∧ j < cand.length) ∧
    ∀ c ∈ calls, c.Right cand

/-! ## The list of candidates -/

/-- What a pass of `calculateWt` does to the list. -/
def reinsert (a b : Index) (cand : List Index) : List Index :=
  (cand.erase a).erase b ++ [a] ++ [b]

theorem reinsert_reinsert {a b : Index} {cand : List Index} (hNodup : cand.Nodup) :
    reinsert a b (reinsert a b cand) = reinsert a b cand := by
  have ha : a ∉ (cand.erase a).erase b := fun h =>
    (hNodup.not_mem_erase) (mem_of_mem_erase h)
  have hb : b ∉ (cand.erase a).erase b := (hNodup.erase a).not_mem_erase
  unfold reinsert
  congr 2
  rw [append_assoc, erase_append_right _ ha, erase_append_right _ hb]
  simp

/-- A list that starts with the two candidates is the same afterwards only if there
are no others. -/
theorem reinsert_cons_cons {a b : Index} {rest : List Index} :
    reinsert a b (a :: b :: rest) = rest ++ [a, b] := by
  simp [reinsert]

theorem rest_eq_nil_of_rotated {a b : Index} {rest : List Index}
    (hNodup : (a :: b :: rest).Nodup) (h : rest ++ [a, b] = a :: b :: rest) : rest = [] := by
  cases rest with
  | nil => rfl
  | cons c rest =>
    injection h with hHead _
    subst hHead
    simp at hNodup

section Runs

variable {pr : Partitioner} {env : Environment} {workBench : List JString}
  {I : Connection → Prop} {cand : List Index} {a b : Index}

theorem elemAtInt_eq_ok {σ α : Type} {xs : List α} {i : Int} {x : α} {s t : σ}
    (h : elemAtInt xs i s = .ok x t) : 0 ≤ i := by
  by_contra hNeg
  unfold elemAtInt at h
  rw [if_pos (by omega)] at h
  cases h

theorem interaction_reads (i : Nat) :
    Ends (fun _ => True) (interaction env workBench a b cand i)
      (fun r _ => r.2 = reinsert a b cand ∧ i < workBench.length) (fun _ => True) := by
  intro s _
  cases hRun : interaction env workBench a b cand i s with
  | error e t => trivial
  | ok r t =>
    obtain ⟨query, s₁, hQuery, hRun⟩ := bind_eq_ok.mp hRun
    have hIndex := elemAtInt_eq_ok hQuery
    obtain ⟨_, _, -, hRun⟩ := bind_eq_ok.mp hRun
    obtain ⟨_, _, -, hRun⟩ := bind_eq_ok.mp hRun
    obtain ⟨_, _, -, hRun⟩ := bind_eq_ok.mp hRun
    obtain ⟨_, _, -, hRun⟩ := bind_eq_ok.mp hRun
    obtain ⟨_, _, -, hRun⟩ := bind_eq_ok.mp hRun
    obtain ⟨_, _, -, hPure⟩ := bind_eq_ok.mp hRun
    cases hPure
    exact ⟨rfl, by omega⟩

/-- `calculateWt` that comes through had a query for every pass of its window, and a
window that is not empty leaves the two candidates at the end. -/
theorem calculateWt_reads (hNodup : cand.Nodup) :
    Ends (fun _ => True) (pr.calculateWt env workBench a b cand)
      (fun r _ => min pr.prev cand.length ≤ workBench.length ∧
        (0 < min pr.prev cand.length → r.2 = reinsert a b cand)) (fun _ => True) := by
  refine ((ends_foldlM_range (I := fun k (acc : ℚ × List Index) (_ : Connection) =>
    k ≤ workBench.length ∧ acc.2 = if k = 0 then cand else reinsert a b cand)
    (min pr.prev cand.length) (0, cand) ?_).pre fun s _ => ⟨zero_le _, rfl⟩).post
    fun r s hr => ⟨hr.1, fun hPos => hr.2.trans (if_neg (by omega))⟩
  intro k _ acc s hs
  apply ((interaction_reads k).bind fun r => ends_pure fun _ hr => ?_) s trivial
  refine ⟨by omega, ?_⟩
  rw [if_neg (by omega)]
  rw [hr.1, hs.2]
  split_ifs with hk
  · rfl
  · exact reinsert_reinsert hNodup

/-! ## The calls of a run that comes through -/

/-- What a call did to the list, if the list had no member twice. -/
def WeighCall.Ran (pr : Partitioner) (workBench : List JString) (c : WeighCall) : Prop :=
  c.before.Nodup → min pr.prev c.before.length ≤ workBench.length ∧
    (0 < min pr.prev c.before.length → c.after = reinsert c.left c.right c.before)

theorem weighCall_ran (i j : Nat) {acc : List WeighCall × List Index}
    (h : ∀ c ∈ acc.1, c.Ran pr workBench) :
    Ends (fun _ => True) (pr.weighCall env workBench i acc j)
      (fun acc' _ => ∀ c ∈ acc'.1, c.Ran pr workBench) (fun _ => True) := by
  apply (ends_trivial _).bind
  intro a
  apply (ends_trivial _).bind
  intro b
  have hWeigh : Ends (fun _ => True) (pr.calculateWt env workBench a b acc.2)
      (fun r _ => acc.2.Nodup → min pr.prev acc.2.length ≤ workBench.length ∧
        (0 < min pr.prev acc.2.length → r.2 = reinsert a b acc.2)) (fun _ => True) := by
    by_cases hNodup : acc.2.Nodup
    · exact (calculateWt_reads hNodup).post fun _ _ hr _ => hr
    · exact (ends_trivial _).post fun _ _ _ h => absurd h hNodup
  apply hWeigh.bind
  intro r
  apply ends_pure
  intro s hr
  exact forall_mem_concat h hr

theorem weighCalls_ran (n : Nat) (cand : List Index) :
    Ends (fun _ => True) (pr.weighCalls env workBench n cand)
      (fun r _ => ∀ c ∈ r.1, c.Ran pr workBench) (fun _ => True) := by
  refine (ends_foldlM (I := fun _ (acc : List WeighCall × List Index) (_ : Connection) =>
    ∀ c ∈ acc.1, c.Ran pr workBench) (range n) ([], cand) ?_).pre fun s _ c hc => nomatch hc
  intro _ i _ acc _
  apply ends_foldlM (I := fun _ (acc : List WeighCall × List Index) (_ : Connection) =>
    ∀ c ∈ acc.1, c.Ran pr workBench) _ acc
  intro _ j _ acc' _ s hs
  exact weighCall_ran i j hs s trivial

/-- The first pair is weighed in the list as it was, which must be as before after
it: then there is no window, or there are no other candidates and enough queries. -/
theorem window_of_weighsPairs {con : Connection} (hNodup : cand.Nodup)
    (h : WeighsPairs pr env workBench cand con) :
    cand.length ≤ 1 ∨ pr.prev = 0 ∨
      (cand.length = 2 ∧ min pr.prev 2 ≤ workBench.length) := by
  obtain ⟨calls, con', hRun, -, -, hPairs, hRight⟩ := h
  match cand, hNodup with
  | [], _ => exact .inl (zero_le 1)
  | [_], _ => exact .inl (le_refl 1)
  | a :: b :: rest, hNodup =>
    have hFirst : (0, 1) ∈ calls.map fun c => (c.i, c.j) := (hPairs 0 1).mpr ⟨by omega, by simp⟩
    obtain ⟨c, hc, hEnds⟩ := mem_map.mp hFirst
    have hRan := (weighCalls_ran _ _).ok trivial hRun c hc
    have hGood := hRight c hc
    rw [WeighCall.Ran, hGood.before, hGood.after] at hRan
    obtain ⟨hWindow, hSame⟩ := hRan hNodup
    have hLeft := hGood.left
    have hOther := hGood.right
    rw [(Prod.mk.inj hEnds).1] at hLeft
    rw [(Prod.mk.inj hEnds).2] at hOther
    injection hLeft with hLeft
    injection hOther with hOther
    rw [← hLeft, ← hOther, reinsert_cons_cons] at hSame
    by_cases hPrev : pr.prev = 0
    · exact .inr (.inl hPrev)
    · have hRest := rest_eq_nil_of_rotated hNodup (hSame (by rw [length_cons]; omega)).symm
      subst hRest
      exact .inr (.inr ⟨rfl, hWindow⟩)

/-! ## Runs in which the list stays as it is -/

/-- The server prices the queries of the workload under any candidates. -/
def PricesWorkload (env : Environment) (I : Connection → Prop) (workBench : List JString)
    (cand : List Index) : Prop :=
  ∀ query ∈ workBench, ∀ conf : List Index, (∀ ix ∈ conf, ix ∈ cand) →
    ∀ con, I con → ∃ x con', whatIf env.server query (.list conf) con = .ok (some x) con' ∧
      I con'

/-- Weighing a pair at these places comes through and leaves the list alone. -/
def Stays (pr : Partitioner) (env : Environment) (workBench : List JString)
    (I : Connection → Prop) (cand : List Index) : Prop :=
  ∀ (i j : Nat) (a b : Index), i < j → cand[i]? = some a → cand[j]? = some b →
    Ends I (pr.calculateWt env workBench a b cand) (fun r s => r.2 = cand ∧ I s)
      (fun _ => False)

/-- The calls for the pairs listed are on record, and the list is as it was. -/
structure Recorded (I : Connection → Prop) (cand : List Index) (pairs : List (Nat × Nat))
    (acc : List WeighCall × List Index) (con : Connection) : Prop where
  list : acc.2 = cand
  listed : (acc.1.map fun c => (c.i, c.j)) = pairs
  right : ∀ c ∈ acc.1, c.Right cand
  con : I con

section

variable (hStays : Stays pr env workBench I cand)
include hStays

theorem weighCall_recorded {i j : Nat} (hij : i < j) (hj : j < cand.length)
    (pairs : List (Nat × Nat)) (acc : List WeighCall × List Index) :
    Ends (Recorded I cand pairs acc) (pr.weighCall env workBench i acc j)
      (Recorded I cand (pairs ++ [(i, j)])) (fun _ => False) := by
  intro s hs
  have hi : i < cand.length := by omega
  have ha : cand[i]? = some cand[i] := getElem?_eq_getElem hi
  have hb : cand[j]? = some cand[j] := getElem?_eq_getElem hj
  obtain ⟨r, t, hRun, hSame, hCon⟩ := (hStays i j _ _ hij ha hb).returns hs.con
  have hCall : pr.weighCall env workBench i acc j s =
      .ok (acc.1 ++ [⟨i, j, cand[i], cand[j], r.1, acc.2, r.2⟩], r.2) t := by
    unfold weighCall
    rw [hs.list]
    apply bind_eq_ok.mpr ⟨cand[i], s, by unfold elemAt; rw [ha]; rfl, ?_⟩
    apply bind_eq_ok.mpr ⟨cand[j], s, by unfold elemAt; rw [hb]; rfl, ?_⟩
    exact bind_eq_ok.mpr ⟨r, t, hRun, rfl⟩
  rw [hCall]
  refine ⟨hSame, ?_, ?_, hCon⟩
  · rw [map_append, hs.listed]
    rfl
  · exact forall_mem_concat hs.right ⟨ha, hb, hs.list, hSame⟩

theorem weighRow_recorded (i : Nat) (pairs : List (Nat × Nat)) (acc : List WeighCall × List Index) :
    Ends (Recorded I cand pairs acc)
      ((range' (i + 1) (cand.length - (i + 1))).foldlM (pr.weighCall env workBench i) acc)
      (Recorded I cand (pairs ++ (range' (i + 1) (cand.length - (i + 1))).map fun j => (i, j)))
      (fun _ => False) := by
  have hLoop := ends_foldlM (I := fun done => Recorded I cand (pairs ++ done.map fun j => (i, j)))
    (f := pr.weighCall env workBench i) (X := fun _ _ => False)
    (range' (i + 1) (cand.length - (i + 1))) acc ?_
  · simpa using hLoop
  · intro pre j post acc' hSplit
    have hj : j ∈ range' (i + 1) (cand.length - (i + 1)) := by
      rw [hSplit]
      simp
    have hRange := mem_range'_1.mp hj
    have hCall := weighCall_recorded hStays (i := i) (j := j) (by omega) (by omega)
      (pairs ++ pre.map fun j => (i, j)) acc'
    simpa using hCall

theorem weighCalls_recorded :
    Ends I (pr.weighCalls env workBench cand.length cand)
      (Recorded I cand (pairsTo cand.length cand.length)) (fun _ => False) := by
  refine (ends_foldlM_range (I := fun k => Recorded I cand (pairsTo cand.length k)) cand.length
    ([], cand) ?_).pre fun s hs => ⟨rfl, rfl, (fun c hc => nomatch hc), hs⟩
  · intro k _ acc
    have hRow := weighRow_recorded hStays k (pairsTo cand.length k) acc
    have hNext : pairsTo cand.length (k + 1) = pairsTo cand.length k ++
        (range' (k + 1) (cand.length - (k + 1))).map fun j => (k, j) := by
      unfold pairsTo
      rw [range_succ]
      simp
    rw [hNext]
    exact hRow

theorem weighsPairs_of_stays {con : Connection}
    (hCon : I con) : WeighsPairs pr env workBench cand con := by
  obtain ⟨⟨calls, cand'⟩, con', hRun, hRec⟩ := (weighCalls_recorded hStays).returns hCon
  have hSame : cand' = cand := hRec.list
  rw [hSame] at hRun
  have hListed : (calls.map fun c => (c.i, c.j)) = pairsTo cand.length cand.length := hRec.listed
  refine ⟨calls, con', hRun, ?_, ?_, ?_, hRec.right⟩
  · rw [edges_eq_weighCalls, map_eq_pure_bind, bind_run_ok hRun]
    rfl
  · rw [hListed]
    exact nodup_pairsTo _ _
  · intro i j
    rw [hListed]
    exact mem_pairsTo

end

theorem stays_of_no_window (hPrev : pr.prev = 0) : Stays pr env workBench I cand := by
  intro i j a b _ _ _
  unfold calculateWt
  rw [hPrev]
  exact ends_pure fun _ hs => ⟨rfl, hs⟩

theorem stays_of_length_le_one (hLen : cand.length ≤ 1) : Stays pr env workBench I cand := by
  intro i j a b hij ha hb
  have hj := (List.getElem?_eq_some_iff.mp hb).1
  omega

variable (hPrices : PricesWorkload env I workBench cand)
include hPrices

theorem interaction_stays {i : Nat}
    (hi : i < workBench.length) (ha : a ∈ cand) :
    Ends I (interaction env workBench a b cand i)
      (fun r s => r.2 = reinsert a b cand ∧ I s) (fun _ => False) := by
  intro s hs
  have hIndex : workBench.length - i - 1 < workBench.length := by omega
  have hQuery : elemAtInt workBench ((workBench.length : Int) - i - 1) s =
      .ok (workBench[workBench.length - i - 1]) s := by
    have hNat : ((workBench.length : Int) - i - 1).toNat = workBench.length - i - 1 := by omega
    unfold elemAtInt elemAt
    rw [if_neg (by omega), hNat, getElem?_eq_getElem hIndex]
    rfl
  have hProbe := hPrices _ (getElem_mem hIndex)
  obtain ⟨d, s₁, hd, hs₁⟩ := hProbe cand (fun _ h => h) s hs
  obtain ⟨x, s₂, hx, hs₂⟩ := hProbe (cand.erase a) (fun _ h => mem_of_mem_erase h) s₁ hs₁
  obtain ⟨y, s₃, hy, hs₃⟩ := hProbe ((cand.erase a).erase b ++ [a])
    (forall_mem_concat (fun _ h => mem_of_mem_erase (mem_of_mem_erase h)) ha) s₂ hs₂
  unfold interaction
  rw [bind_run_ok hQuery, bind_run_ok hd, bind_run_ok (show unbox (some d) s₁ = .ok d s₁ from rfl),
    bind_run_ok hx, bind_run_ok (show unbox (some x) s₂ = .ok x s₂ from rfl), bind_run_ok hy]
  exact ⟨rfl, hs₃⟩

theorem stays_of_two (hLen : cand.length = 2)
    (hWindow : min pr.prev 2 ≤ workBench.length) : Stays pr env workBench I cand := by
  intro i j a b hij ha hb
  have hj := (List.getElem?_eq_some_iff.mp hb).1
  have hi0 : i = 0 := by omega
  have hj1 : j = 1 := by omega
  subst hi0 hj1
  obtain ⟨x, y, rfl⟩ := length_eq_two.mp hLen
  cases ha
  cases hb
  have hSame : reinsert a b [a, b] = [a, b] := reinsert_cons_cons
  refine (ends_foldlM_range (I := fun _ (acc : ℚ × List Index) (s : Connection) =>
    acc.2 = [a, b] ∧ I s) (min pr.prev 2) (0, [a, b]) ?_).pre fun s hs => ⟨rfl, hs⟩
  intro k hk acc s hs
  rw [hs.1]
  apply ((interaction_stays hPrices (by omega) (by simp)).bind fun r => ?_) s hs.2
  apply ends_pure
  intro t ht
  rw [hSame] at ht
  exact ht

/-- **The pairs are weighed as meant exactly when** there is at most one candidate, or
no window, or there are two candidates and as many queries as passes. -/
theorem weighsPairs_iff (hNodup : cand.Nodup) {con : Connection} (hCon : I con) :
    WeighsPairs pr env workBench cand con ↔
      cand.length ≤ 1 ∨ pr.prev = 0 ∨
        (cand.length = 2 ∧ min pr.prev 2 ≤ workBench.length) := by
  constructor
  · exact window_of_weighsPairs hNodup
  · intro h
    apply weighsPairs_of_stays _ hCon
    rcases h with hLen | hPrev | ⟨hLen, hWindow⟩
    · exact stays_of_length_le_one hLen
    · exact stays_of_no_window hPrev
    · exact stays_of_two hPrices hLen hWindow

end Runs

/-- Two candidates, one query and a window of one. -/
theorem weighsPairs_two :
    WeighsPairs ⟨2, 10, 1⟩ calmEnvironment [js ['q']] [ordersIndex, customersIndex]
      freshConnection := by
  have hCand : Candidates freshConnection.dbName [ordersIndex, customersIndex] := by
    constructor <;> decide +kernel
  have hPrices : PricesWorkload calmEnvironment
      (Settled freshConnection.dbName [ordersIndex, customersIndex]) [js ['q']]
      [ordersIndex, customersIndex] := by
    intro query _ conf hConf con hCon
    obtain ⟨t, con', hRun, hCost, hCon'⟩ :=
      (whatIf_calm hCand (calmServer_calm _) query hConf).returns hCon
    rw [hCost] at hRun
    exact ⟨1, con', hRun, hCon'⟩
  exact (weighsPairs_iff hPrices (by decide) Settled.fresh).mpr (.inr (.inr ⟨rfl, by decide⟩))

/-- With a window of one query and three candidates the second call weighs the third candidate with
the second, for the edge of the first and the third; with a window of two and a single query the
first call reads before the start of the workload. -/
theorem weighCalls_reorder :
    (returned (weighCalls ⟨2, 10, 1⟩ calmEnvironment [js ['q']] 3
        [ordersIndex, customersIndex, voteV]) freshConnection).map
        (fun r => r.1.map fun c => (c.i, c.j, c.left, c.right)) =
      some [(0, 1, ordersIndex, customersIndex), (0, 2, voteV, customersIndex),
        (1, 2, voteV, customersIndex)] ∧
    returned (edges ⟨2, 10, 2⟩ calmEnvironment [js ['q']] 2
      [ordersIndex, customersIndex]) freshConnection = none ∧
    ¬ WeighsPairs ⟨2, 10, 1⟩ calmEnvironment [js ['q']]
      [ordersIndex, customersIndex, voteV] freshConnection := by
  refine ⟨?_, ?_, ?_⟩
  · decide +kernel
  · decide +kernel
  · intro h
    rcases window_of_weighsPairs (by decide) h with hLen | hPrev | ⟨hLen, -⟩
    · exact absurd hLen (by decide)
    · exact absurd hPrev (by decide)
    · exact absurd hLen (by decide)

end Partitioner

end PgTuning.Advisor
