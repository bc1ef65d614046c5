import PgTuning.Advisor.WorkFunction

/-!
# What `feedback` does to the work function

A vote is to raise the work function just as far as it needs: entry `i` becomes
`max (w i) (w sugg + minDiff i - δ (S i) sugg)`, where `minDiff i` is the cost of adapting `S i` to
the vote and back.

The loop keeps the quantity it tests in the cell `w.get(i)` itself, and adds `w.get(indexSugg)`
instead of subtracting it. Entry `i` ends as `max (w i + δ (S i) sugg + x) (minDiff i)`, where `x`
is what the cell of the suggestion holds at that moment: its old value before the loop has come to
it, twice its moved value in its own pass, its new value afterwards.
-/

namespace PgTuning.Advisor

open PgTuning.Lib PgTuning.Lib.Attempt Function

/-- `sCons`: the configuration with the votes applied. -/
def consistentWith (fPlus fMinus s : List Index) : List Index :=
  fPlus ++ s.filter fun ix => !(fPlus.contains ix) && !((treeSet fMinus).contains ix)

/-- The prober answers the changes `feedback` asks for: from each configuration to its
consistent version and back, and to the suggestion. -/
structure PricesVote {σ : Type} (p : Prober σ) (I : σ → Prop) (fPlus fMinus : List Index)
    (S : List (List Index)) (sugg : List Index) (δ : List Index → List Index → ℚ) :
    Prop where
  there : ∀ A ∈ S, ∀ con, I con → ∃ con',
    p.changeConfig A (consistentWith fPlus fMinus A) con =
      .ok (δ A (consistentWith fPlus fMinus A)) con' ∧ I con'
  back : ∀ A ∈ S, ∀ con, I con → ∃ con',
    p.changeConfig (consistentWith fPlus fMinus A) A con =
      .ok (δ (consistentWith fPlus fMinus A) A) con' ∧ I con'
  move : ∀ A ∈ S, ∀ con, I con → ∃ con',
    p.changeConfig A sugg con = .ok (δ A sugg) con' ∧ I con'

/-- The numbers of one vote: the cost of moving each configuration to the suggestion,
and of adapting it to the vote and back. -/
structure VoteCosts where
  move : Nat → ℚ
  minDiff : Nat → ℚ

def voteCosts (fPlus fMinus : List Index) (S : List (List Index)) (sugg : List Index)
    (δ : List Index → List Index → ℚ) : VoteCosts where
  move := fun i => δ (S.getD i []) sugg
  minDiff := fun i => δ (S.getD i []) (consistentWith fPlus fMinus (S.getD i [])) +
    δ (consistentWith fPlus fMinus (S.getD i [])) (S.getD i [])

namespace VoteCosts

variable (v : VoteCosts) (s : Nat)

/-- What a pass stores in entry `i` of the work function `u`. -/
def stored (u : Nat → ℚ) (i : Nat) : ℚ :=
  max (u i + v.move i + update u i (u i + v.move i) s) (v.minDiff i)

/-- The work function after the passes over the entries listed. -/
def visit (w : Nat → ℚ) (order : List Nat) : Nat → ℚ :=
  order.foldl (fun u i => update u i (v.stored s u i)) w

/-- The bound a vote is to raise entry `i` to. -/
def raised (w : Nat → ℚ) (i : Nat) : ℚ := max (w i) (w s + v.minDiff i - v.move i)

end VoteCosts

section Run

variable {σ : Type} {p : Prober σ} {I : σ → Prop} {fPlus fMinus : List Index}
  {S : List (List Index)} {sugg : List Index} {δ : List Index → List Index → ℚ}
  {t : IndexTuner} {u : Nat → ℚ} {E : TunerState σ → Prop} {k : Nat}

theorem raiseCell_ends {n i : Nat} (hi : i < n) (m : ℚ) :
    Ends (Holds I t n u)
      (if u i < m then do
          let wi ← getW i
          setW i (wi + m - u i)
        else pure () : TunerM σ Unit)
      (fun _ => Holds I t n (update u i (max (u i) m))) E := by
  split_ifs with hLt
  · rw [max_eq_right hLt.le]
    refine (getW_ends hi).bind_value ?_
    rw [add_sub_cancel_left]
    exact setW_ends i m
  · rw [max_eq_left (not_lt.mp hLt), update_eq_self]
    exact ends_pure fun _ hs => hs

variable (hP : PricesVote p I fPlus fMinus S sugg δ) (hk : k < S.length)
include hP hk

theorem feedbackEntry_ends {i : Nat} (hi : i < S.length) :
    Ends (Holds I t S.length u) (feedbackEntry p fPlus fMinus S sugg k i)
      (fun _ => Holds I t S.length
        (update u i ((voteCosts fPlus fMinus S sugg δ).stored k u i))) E := by
  have hMem := getD_mem hi
  refine (elemAt_ends (getElem?_getD hi)).bind_value ?_
  refine (onCon_ends (hP.there _ hMem)).bind_value ?_
  refine (onCon_ends (hP.back _ hMem)).bind_value ?_
  refine (getW_ends hi).bind_value ?_
  refine (onCon_ends (hP.move _ hMem)).bind_value ?_
  refine (setW_ends i _).bind fun _ => ?_
  refine (getW_ends hi).bind_value ?_
  refine (getW_ends hk).bind_value ?_
  refine (setW_ends i _).bind fun _ => ?_
  refine (getW_ends hi).bind_value ?_
  refine (raiseCell_ends hi _).weaken (fun _ hs => hs) ?_ (fun _ hs => hs)
  intro _ s hs
  rw [update_idem, update_idem] at hs
  simp only [update_self] at hs
  exact hs

theorem visit_ends :
    ∀ (order : List Nat) (u : Nat → ℚ), (∀ i ∈ order, i < S.length) →
      Ends (Holds I t S.length u)
        (forM order (feedbackEntry p fPlus fMinus S sugg k))
        (fun _ => Holds I t S.length ((voteCosts fPlus fMinus S sugg δ).visit k u order)) E := by
  intro order
  induction order with
  | nil =>
    intro u _
    exact ends_pure fun _ hs => hs
  | cons i order ih =>
    intro u hOrder
    refine (feedbackEntry_ends hP hk (hOrder i (by simp))).bind fun _ => ?_
    exact ih _ fun j hj => hOrder j (by simp [hj])

end Run

/-! ## The order of the passes -/

namespace VoteCosts

variable {v : VoteCosts} {s n : Nat} {w : Nat → ℚ}

theorem visit_append (w : Nat → ℚ) (xs ys : List Nat) :
    v.visit s w (xs ++ ys) = v.visit s (v.visit s w xs) ys :=
  List.foldl_append

variable {i : Nat} {post pre order : List Nat}

theorem visit_of_not_mem (order : List Nat) :
    ∀ w : Nat → ℚ, i ∉ order → v.visit s w order i = w i := by
  induction order with
  | nil =>
    intro w _
    rfl
  | cons j order ih =>
    intro w hNot
    have hNe : i ≠ j := fun h => hNot (h ▸ List.mem_cons_self)
    have hRest : i ∉ order := fun h => hNot (List.mem_cons_of_mem j h)
    show v.visit s (update w j (v.stored s w j)) order i = w i
    rw [ih _ hRest, update_of_ne hNe]

section

variable (hNodup : (pre ++ i :: post).Nodup)
include hNodup

theorem visit_at : v.visit s w (pre ++ i :: post) i = v.stored s (v.visit s w pre) i := by
  have hPost : i ∉ post := (List.nodup_cons.mp (List.nodup_append.mp hNodup).2.1).1
  rw [visit_append]
  show v.visit s (update (v.visit s w pre) i _) post i = _
  rw [visit_of_not_mem post _ hPost, update_self]

theorem not_mem_pre : i ∉ pre := fun h =>
  (List.nodup_append.mp hNodup).2.2 i h i List.mem_cons_self rfl

omit hNodup in
/-- The pass over the suggestion itself doubles what it holds. -/
theorem visit_sugg (hNodup : (pre ++ s :: post).Nodup) :
    v.visit s w (pre ++ s :: post) s = max (w s + v.move s + (w s + v.move s)) (v.minDiff s) := by
  rw [visit_at hNodup, stored, update_self, visit_of_not_mem pre w (not_mem_pre hNodup)]

/-- Another entry gets what the cell of the suggestion holds when it is visited. -/
theorem visit_other (hNe : i ≠ s) :
    v.visit s w (pre ++ i :: post) i = max (w i + v.move i + v.visit s w pre s) (v.minDiff i) := by
  rw [visit_at hNodup, stored, update_of_ne hNe.symm, visit_of_not_mem pre w (not_mem_pre hNodup)]

/-- Once visited, the cell of the suggestion does not change any more. -/
theorem visit_sugg_pre (hMem : s ∈ pre) : v.visit s w pre s = v.visit s w (pre ++ i :: post) s := by
  have hRest : s ∉ i :: post := fun h =>
    (List.nodup_append.mp hNodup).2.2 s hMem s h rfl
  rw [visit_append, visit_of_not_mem _ _ hRest]

end

/-- The value `max (a + d + x) m` the loop stores is the bound `max a (b + m - d)`. -/
def Settles (a b d m x : ℚ) : Prop :=
  (b + m - d ≤ a ∧ (d + x = 0 ∧ m ≤ a ∨ m = a ∧ d + x ≤ 0)) ∨
    (a < b + m - d ∧ (a + 2 * d + x = b + m ∧ d ≤ b ∨ d = b ∧ a + d + x ≤ m))

theorem settles_iff (a b d m x : ℚ) :
    max (a + d + x) m = max a (b + m - d) ↔ Settles a b d m x := by
  rcases le_or_gt (b + m - d) a with hBound | hBound
  · rw [max_eq_left hBound, max_eq_iff]
    constructor
    · rintro (⟨hLeft, hLe⟩ | ⟨hRight, hLe⟩)
      · exact .inl ⟨hBound, .inl ⟨by linarith, by linarith⟩⟩
      · exact .inl ⟨hBound, .inr ⟨hRight, by linarith⟩⟩
    · rintro (⟨-, ⟨hZero, hLe⟩ | ⟨hEq, hLe⟩⟩ | ⟨hLt, -⟩)
      · exact .inl ⟨by linarith, by linarith⟩
      · exact .inr ⟨hEq, by linarith⟩
      · exact absurd hLt (not_lt.mpr hBound)
  · rw [max_eq_right hBound.le, max_eq_iff]
    constructor
    · rintro (⟨hLeft, hLe⟩ | ⟨hRight, hLe⟩)
      · exact .inr ⟨hBound, .inl ⟨by linarith, by linarith⟩⟩
      · exact .inr ⟨hBound, .inr ⟨by linarith, hLe⟩⟩
    · rintro (⟨hLe, -⟩ | ⟨-, ⟨hSum, hLe⟩ | ⟨hEq, hLe⟩⟩)
      · exact absurd hBound (not_lt.mpr hLe)
      · exact .inl ⟨by linarith, by linarith⟩
      · exact .inr ⟨by linarith, hLe⟩

/-- The numbers for which the vote raises every entry to its bound: the suggestion's
own pass settles, and the others settle with the cell of the suggestion as it was and
as it is to become. -/
structure Fits (v : VoteCosts) (s n : Nat) (w : Nat → ℚ) : Prop where
  sugg : Settles (w s) (w s) (v.move s) (v.minDiff s) (w s + v.move s)
  before : ∀ i < n, i ≠ s → Settles (w i) (w s) (v.move i) (v.minDiff i) (w s)
  after : ∀ i < n, i ≠ s → Settles (w i) (w s) (v.move i) (v.minDiff i)
    (max (w s) (w s + v.minDiff s - v.move s))

theorem exists_split {n : Nat} (hOrder : order.Perm (List.range n)) (hi : i < n) :
    ∃ pre post, order = pre ++ i :: post ∧ (pre ++ i :: post).Nodup := by
  have hMem : i ∈ order := hOrder.mem_iff.mpr (List.mem_range.mpr hi)
  obtain ⟨pre, post, hSplit⟩ := List.append_of_mem hMem
  refine ⟨pre, post, hSplit, ?_⟩
  rw [← hSplit]
  exact hOrder.nodup_iff.mpr List.nodup_range

section

variable (h : Fits v s n w) (hOrder : order.Perm (List.range n)) (hs : s < n)
include h hOrder hs

theorem Fits.visit_sugg : v.visit s w order s = v.raised s w s := by
  obtain ⟨pre, post, hSplit, hNodup⟩ := exists_split hOrder hs
  rw [hSplit, VoteCosts.visit_sugg hNodup]
  exact (settles_iff _ _ _ _ _).mpr h.sugg

/-- In every order every entry reaches its bound. -/
theorem Fits.visit (hi : i < n) : v.visit s w order i = v.raised s w i := by
  by_cases hNe : i = s
  · rw [hNe]
    exact h.visit_sugg hOrder hs
  obtain ⟨pre, post, hSplit, hNodup⟩ := exists_split hOrder hi
  rw [hSplit, visit_other hNodup hNe]
  apply (settles_iff _ _ _ _ _).mpr
  by_cases hMem : s ∈ pre
  · have hAfter := h.after i hi hNe
    rw [visit_sugg_pre hNodup hMem, ← hSplit, h.visit_sugg hOrder hs]
    exact hAfter
  · rw [visit_of_not_mem pre w hMem]
    exact h.before i hi hNe

end

/-- Visiting the entry first and visiting it last already force the numbers to fit. -/
theorem fits_of_visit (hs : s < n) (h : ∀ order : List Nat, order.Perm (List.range n) →
      ∀ i < n, v.visit s w order i = v.raised s w i) : Fits v s n w := by
  have hErase : ∀ {i}, i < n → (i :: (List.range n).erase i).Perm (List.range n) :=
    fun hi => (List.perm_cons_erase (List.mem_range.mpr hi)).symm
  refine ⟨?_, ?_, ?_⟩
  · obtain ⟨pre, post, hSplit, hNodup⟩ := exists_split (List.Perm.refl _) hs
    have hValue := h _ (List.Perm.refl _) s hs
    rw [hSplit, VoteCosts.visit_sugg hNodup] at hValue
    exact (settles_iff _ _ _ _ _).mp hValue
  · intro i hi hNe
    have hNodup : ([] ++ i :: (List.range n).erase i).Nodup :=
      (hErase hi).nodup_iff.mpr List.nodup_range
    have hValue := h _ (hErase hi) i hi
    have hStored := visit_other (v := v) (w := w) hNodup hNe
    rw [List.nil_append, hValue] at hStored
    exact (settles_iff _ _ _ _ _).mp hStored.symm
  · intro i hi hNe
    have hLast : ((List.range n).erase i ++ [i]).Perm (List.range n) :=
      (List.perm_append_singleton i _).trans (hErase hi)
    have hNodup : ((List.range n).erase i ++ i :: []).Nodup := hLast.nodup_iff.mpr List.nodup_range
    have hMem : s ∈ (List.range n).erase i :=
      (List.mem_erase_of_ne (Ne.symm hNe)).mpr (List.mem_range.mpr hs)
    have hValue := h _ hLast i hi
    rw [visit_other hNodup hNe, visit_sugg_pre hNodup hMem, h _ hLast s hs] at hValue
    exact (settles_iff _ _ _ _ _).mp hValue

end VoteCosts

/-! ## The bound -/

section Bound

variable {σ : Type} (p : Prober σ) (fPlus fMinus : List Index) (S : List (List Index))
  (sugg : List Index) (δ : List Index → List Index → ℚ)

/-- The loop of `feedback` with the entries visited in the order given. -/
def feedbackVisit (order : List Nat) : TunerM σ Unit :=
  forM order (feedbackEntry p fPlus fMinus S sugg (S.idxOf sugg))

/-- The work function a vote is to leave. -/
def votedWork (w : List ℚ) : List ℚ :=
  (List.range S.length).map ((voteCosts fPlus fMinus S sugg δ).raised (S.idxOf sugg)
    fun i => w.getD i 0)

/-- `feedback` raises every entry just to its bound, and so does its loop when it
visits the entries in any other order. -/
structure RaisesToBound (t : IndexTuner) (w : List ℚ) (con : σ) : Prop where
  feedback : ∃ s, feedback p fPlus fMinus (startState t w con) = .ok () s ∧
    s.tuner.w = some (votedWork fPlus fMinus S sugg δ w)
  anyOrder : ∀ order : List Nat, order.Perm (List.range S.length) →
    ∃ s, feedbackVisit p fPlus fMinus S sugg order (startState t w con) = .ok () s ∧
      s.tuner.w = some (votedWork fPlus fMinus S sugg δ w)

variable {p fPlus fMinus S sugg δ} {I : σ → Prop} {t : IndexTuner} {w : List ℚ} {con : σ}

theorem feedbackVisit_run (hP : PricesVote p I fPlus fMinus S sugg δ)
    (hMem : sugg ∈ S) (hLen : w.length = S.length) (hCon : I con) {order : List Nat}
    (hOrder : order.Perm (List.range S.length)) :
    ∃ s, feedbackVisit p fPlus fMinus S sugg order (startState t w con) = .ok () s ∧
      Holds I t S.length ((voteCosts fPlus fMinus S sugg δ).visit (S.idxOf sugg)
        (fun i => w.getD i 0) order) s := by
  have hBelow : ∀ i ∈ order, i < S.length := fun i hi =>
    List.mem_range.mp (hOrder.mem_iff.mp hi)
  obtain ⟨_, s, hRun, hHolds⟩ := (visit_ends hP (List.idxOf_lt_length_of_mem hMem) order _
    hBelow).returns (holds_start t hLen hCon)
  exact ⟨s, hRun, hHolds⟩

/-- `feedback` is the loop in the order of the list, then the new suggestion. -/
theorem feedback_run (hS : t.curCand = some S) (hSugg : t.sugg = some sugg) (hMem : sugg ∈ S)
    {s : TunerState σ} (hRun : feedbackVisit p fPlus fMinus S sugg (List.range S.length)
      (startState t w con) = .ok () s) :
    ∃ s', feedback p fPlus fMinus (startState t w con) = .ok () s' ∧
      s'.tuner.w = s.tuner.w := by
  have hLoop : feedbackLoop p fPlus fMinus S sugg =
      feedbackVisit p fPlus fMinus S sugg (List.range S.length) := if_pos hMem
  refine ⟨⟨{ s.tuner with sugg := some (fPlus ++ sugg.filter fun ix =>
    !((treeSet fMinus).contains ix)) }, s.con⟩, ?_, rfl⟩
  unfold feedback
  rw [bind_run_ok (get_run _)]
  refine bind_eq_ok.mpr ⟨sugg, startState t w con, ?_, ?_⟩
  · show nonNull t.sugg _ = _
    rw [hSugg]
    rfl
  refine bind_eq_ok.mpr ⟨S, startState t w con, ?_, ?_⟩
  · show nonNull t.curCand _ = _
    rw [hS]
    rfl
  rw [hLoop]
  exact bind_eq_ok.mpr ⟨(), s, hRun, rfl⟩

/-- **When `feedback` raises the work function to the bound of the vote.** -/
theorem feedback_raises_iff (hP : PricesVote p I fPlus fMinus S sugg δ) (hS : t.curCand = some S)
    (hSugg : t.sugg = some sugg) (hMem : sugg ∈ S) (hLen : w.length = S.length) (hCon : I con) :
    RaisesToBound p fPlus fMinus S sugg δ t w con ↔
      (voteCosts fPlus fMinus S sugg δ).Fits (S.idxOf sugg) S.length fun i => w.getD i 0 := by
  have hIdx := List.idxOf_lt_length_of_mem hMem
  constructor
  · intro h
    apply VoteCosts.fits_of_visit hIdx
    intro order hOrder i hi
    obtain ⟨s, hRun, hW⟩ := h.anyOrder order hOrder
    obtain ⟨s', hRun', hHolds⟩ := feedbackVisit_run hP hMem hLen hCon hOrder
    rw [hRun] at hRun'
    cases hRun'
    rw [hHolds.1] at hW
    injection hW with hW
    exact List.map_inj_left.mp hW i (List.mem_range.mpr hi)
  · intro h
    have hOrders : ∀ order : List Nat, order.Perm (List.range S.length) →
        ∃ s, feedbackVisit p fPlus fMinus S sugg order (startState t w con) = .ok () s ∧
          s.tuner.w = some (votedWork fPlus fMinus S sugg δ w) := by
      intro order hOrder
      obtain ⟨s, hRun, hHolds⟩ := feedbackVisit_run hP hMem hLen hCon hOrder
      refine ⟨s, hRun, ?_⟩
      rw [hHolds.1]
      apply congrArg some
      apply List.map_congr_left
      intro i hi
      exact h.visit hOrder hIdx (List.mem_range.mp hi)
    obtain ⟨s, hRun, hW⟩ := hOrders _ (List.Perm.refl _)
    obtain ⟨s', hRun', hW'⟩ := feedback_run hS hSugg hMem hRun
    exact ⟨⟨s', hRun', hW'.trans hW⟩, hOrders⟩

end Bound

def orderlinesIndex : Index :=
  Index.new 2 (js "orderlines".toList) (js "orderid".toList) true (js "it_dellstore2".toList)

/-- Building `orderlinesIndex` costs 1, every other change is free. -/
def orderlinesChange (A B : List Index) : ℚ :=
  if orderlinesIndex ∈ B ∧ orderlinesIndex ∉ A then 1 else 0

/-- A vote for an index that neither configuration has raises both entries by the cost of
building it. -/
theorem feedback_raises_orderlines :
    RaisesToBound (tableProber (fun _ => 0) orderlinesChange) [orderlinesIndex] []
        twoConfigurations [ordersIndex] orderlinesChange twoTuner [0, 0] () ∧
      votedWork [orderlinesIndex] [] twoConfigurations [ordersIndex] orderlinesChange [0, 0] =
        [1, 1] := by
  have hP : PricesVote (tableProber (fun _ => 0) orderlinesChange) (fun _ => True)
      [orderlinesIndex] [] twoConfigurations [ordersIndex] orderlinesChange :=
    ⟨fun _ _ con _ => ⟨con, rfl, trivial⟩, fun _ _ con _ => ⟨con, rfl, trivial⟩,
      fun _ _ con _ => ⟨con, rfl, trivial⟩⟩
  refine ⟨(feedback_raises_iff hP rfl rfl (by decide) rfl trivial).mpr ⟨?_, ?_, ?_⟩,
    by decide +kernel⟩
  · unfold VoteCosts.Settles
    decide +kernel
  · unfold VoteCosts.Settles
    decide +kernel
  · unfold VoteCosts.Settles
    decide +kernel

/-- Without any vote the bound is met already, yet `feedback` doubles the entry of the
suggestion and adds it to the other one. -/
theorem feedback_without_votes_raises :
    (finalState (feedback (connectionProber skewServer) [] [])
        (startState twoTuner [1, 10] freshConnection)).tuner.w = some [2, 13] ∧
      votedWork [] [] twoConfigurations [ordersIndex]
        (probedChange (connectionProber skewServer) freshConnection) [1, 10] =
        [1, 10] ∧
      ¬ RaisesToBound (connectionProber skewServer) [] [] twoConfigurations [ordersIndex]
        (probedChange (connectionProber skewServer) freshConnection) twoTuner [1, 10]
        freshConnection := by
  have hRun : (finalState (feedback (connectionProber skewServer) [] [])
      (startState twoTuner [1, 10] freshConnection)).tuner.w = some [2, 13] := by
    decide +kernel
  have hBound : votedWork [] [] twoConfigurations [ordersIndex]
      (probedChange (connectionProber skewServer) freshConnection) [1, 10] = [1, 10] := by
    decide +kernel
  refine ⟨hRun, hBound, ?_⟩
  intro h
  obtain ⟨s, hOk, hW⟩ := h.feedback
  unfold finalState at hRun
  rw [hOk] at hRun
  rw [hBound, hRun] at hW
  revert hW
  decide

end PgTuning.Advisor
