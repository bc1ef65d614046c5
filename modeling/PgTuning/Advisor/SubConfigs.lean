import Mathlib.Algebra.Order.Ring.Rat
import Mathlib.Data.List.Induction
import PgTuning.Advisor.Selection

/-!
# The parts of `greedymk`

The sub-configurations are read off the candidates without changing the connection
(`subConfigs_run`): up to their order they are all choices of `m` candidates. The tree map
returns a cheapest entry, and the growing loop returns what it is given.
-/

namespace PgTuning.Advisor

open PgTuning.Lib PgTuning.Lib.Attempt List

variable {cand : List Index} {m k : Nat} {entry : ℚ × List Index} {ps : List Nat}

theorem elemAt_run {σ α : Type} {xs : List α} {i : Nat} {a : α} (h : xs[i]? = some a) (s : σ) :
    elemAt xs i s = .ok a s := by
  unfold elemAt
  rw [h]
  rfl

/-! ## The sub-configurations -/

section

variable {α : Type} {k : Int} {rest current S : List α}

/-- A full set is listed itself, whatever is left of the super set. -/
theorem eq_current_iff (h : current.length = k) :
    S = current ↔ S.length = k ∧ ∃ T, T.Sublist rest ∧ S = current ++ T := by
  constructor
  · rintro rfl
    exact ⟨h, [], nil_sublist _, (append_nil _).symm⟩
  · rintro ⟨hLen, T, -, rfl⟩
    rw [length_append] at hLen
    rw [length_eq_zero_iff.mp (by omega : T.length = 0), append_nil]

/-- The subsets listed are those that extend the current one by later elements. -/
theorem mem_getSubsets :
    S ∈ getSubsets k rest current ↔ S.length = k ∧ ∃ T, T.Sublist rest ∧ S = current ++ T := by
  induction rest generalizing current with
  | nil =>
    unfold getSubsets
    by_cases hFull : current.length = k
    · rw [if_pos hFull, mem_singleton]
      exact eq_current_iff hFull
    · rw [if_neg hFull]
      constructor
      · intro h
        cases h
      · rintro ⟨hLen, T, hT, rfl⟩
        rw [sublist_nil.mp hT, append_nil] at hLen
        exact absurd hLen hFull
  | cons x rest ih =>
    unfold getSubsets
    by_cases hFull : current.length = k
    · rw [if_pos hFull, mem_singleton]
      exact eq_current_iff hFull
    · rw [if_neg hFull, mem_append, ih, ih]
      constructor
      · rintro (⟨hLen, T, hT, rfl⟩ | ⟨hLen, T, hT, rfl⟩)
        · exact ⟨hLen, x :: T, hT.cons_cons x, by simp⟩
        · exact ⟨hLen, T, hT.cons x, rfl⟩
      · rintro ⟨hLen, T, hT, rfl⟩
        cases hT with
        | cons _ hRest => exact .inr ⟨hLen, T, hRest, rfl⟩
        | cons_cons _ hRest => exact .inl ⟨hLen, _, hRest, by simp⟩

end

/-- The members at these positions. -/
def pick (cand : List Index) (ps : List Nat) : List Index := ps.filterMap fun p => cand[p]?

theorem pick_range (cand : List Index) : pick cand (range cand.length) = cand := by
  induction cand with
  | nil => rfl
  | cons ix cand ih =>
    have hHead : (ix :: cand)[0]? = some ix := rfl
    rw [length_cons, range_succ_eq_map, pick, filterMap_cons_some hHead, filterMap_map]
    exact congrArg (ix :: ·) ih

theorem length_pick (h : ∀ p ∈ ps, p < cand.length) : (pick cand ps).length = ps.length := by
  induction ps with
  | nil => rfl
  | cons p ps ih =>
    have hLt : p < cand.length := h p (by simp)
    rw [pick, filterMap_cons_some (getElem?_eq_getElem hLt)]
    exact congrArg (· + 1) (ih fun q hq => h q (by simp [hq]))

theorem pickAll_run (h : ∀ p ∈ ps, p < cand.length) (con : Connection) :
    pickAll cand ps con = .ok (pick cand ps) con := by
  induction ps with
  | nil => rfl
  | cons p ps ih =>
    have hLt : p < cand.length := h p (by simp)
    have hp : cand[p]? = some cand[p] := getElem?_eq_getElem hLt
    unfold pickAll
    rw [pick, filterMap_cons_some hp]
    exact mapM_cons_eq_ok.mpr ⟨cand[p], con, pick cand ps, elemAt_run hp con,
      ih fun q hq => h q (by simp [hq]), rfl⟩

section Subsets

variable (env : Environment) {con : Connection}

/-- The sub-configurations in their order, with the clock the connection shows. -/
def subConfigList (clock : Nat) (cand : List Index) (m : Nat) : List (List Index) :=
  (getSubsets m (range cand.length) []).map fun subset =>
    pick cand (env.setOrder clock subset)

theorem setOrder_bounded {subset : List Nat} (clock : Nat)
    (hMem : subset ∈ getSubsets m (range cand.length) []) :
    ∀ p ∈ env.setOrder clock subset, p < cand.length := by
  intro p hp
  obtain ⟨-, T, hT, hEq⟩ := mem_getSubsets.mp hMem
  rw [nil_append] at hEq
  have hIn : p ∈ T := by
    rw [← hEq]
    exact (env.setOrder_perm clock subset).mem_iff.mp hp
  exact mem_range.mp (hT.subset hIn)

theorem subConfigs_run (con : Connection) :
    subConfigs env cand m con = .ok (subConfigList env con.clock cand m) con := by
  obtain ⟨con', hRun, rfl⟩ := mapM_runs (f := fun subset => (do
      let con ← get
      pickAll cand (env.setOrder con.clock subset) : JavaM (List Index)))
    (getSubsets m (range cand.length) []) (by
      rintro subset hMem _ rfl
      refine ⟨_, ?_, rfl⟩
      exact pickAll_run (setOrder_bounded env _ hMem) _) con rfl
  exact hRun

theorem mem_subConfigList {clock : Nat} {S : List Index}
    (h : S ∈ subConfigList env clock cand m) : S.Subperm cand ∧ S.length = m := by
  obtain ⟨subset, hMem, rfl⟩ := mem_map.mp h
  obtain ⟨hLen, T, hT, hEq⟩ := mem_getSubsets.mp hMem
  subst hEq
  have hPerm := env.setOrder_perm clock subset
  constructor
  · have hSub : (pick cand subset).Sublist (pick cand (range cand.length)) := hT.filterMap _
    rw [pick_range] at hSub
    exact List.Subperm.trans (hPerm.filterMap _).subperm hSub.subperm
  · rw [length_pick (setOrder_bounded env clock hMem), hPerm.length_eq]
    exact Int.natCast_inj.mp hLen

/-- Up to their order, all choices of `m` candidates are sub-configurations. -/
theorem exists_mem_subConfigList (clock : Nat) {T : List Index} (hSub : T.Subperm cand)
    (hLen : T.length = m) : ∃ S ∈ subConfigList env clock cand m, S.Perm T := by
  obtain ⟨T', hPerm, hT'⟩ := hSub
  rw [← pick_range cand] at hT'
  obtain ⟨subset, hRange, hEq⟩ := sublist_filterMap_iff.mp hT'
  have hBound : ∀ p ∈ subset, p < cand.length := fun p hp =>
    mem_range.mp (hRange.subset hp)
  have hCount : subset.length = m := by
    rw [← hLen, ← hPerm.length_eq, hEq]
    exact (length_pick hBound).symm
  have hMem := mem_getSubsets.mpr
    ⟨congrArg Nat.cast hCount, subset, hRange, (nil_append subset).symm⟩
  refine ⟨_, mem_map.mpr ⟨subset, hMem, rfl⟩, ?_⟩
  apply List.Perm.trans _ hPerm
  rw [hEq]
  exact (env.setOrder_perm clock subset).filterMap _

end Subsets

/-! ## The first entry of the tree map -/

/-- The tree map after one more entry, as far as its first entry goes. -/
def keepFirst (best : Option (ℚ × List Index)) (entry : ℚ × List Index) :
    Option (ℚ × List Index) :=
  match best with
  | none => some entry
  | some (c, S) =>
    if entry.1 < c then some entry
    else if entry.1 = c then some (c, entry.2) else some (c, S)

theorem firstEntry_eq (entries : List (ℚ × List Index)) :
    firstEntry entries = (entries.foldl keepFirst none).map Prod.snd := rfl

theorem keepFirst_some (c : ℚ) (S : List Index) (entry : ℚ × List Index) :
    keepFirst (some (c, S)) entry =
      if entry.1 < c then some entry
      else if entry.1 = c then some (c, entry.2) else some (c, S) := rfl

theorem keepFirst_of_le {best : Option (ℚ × List Index)}
    (h : ∀ b, best = some b → entry.1 ≤ b.1) : keepFirst best entry = some entry := by
  cases best with
  | none => rfl
  | some b =>
    obtain ⟨c, S⟩ := b
    have hLe : entry.1 ≤ c := h (c, S) rfl
    rw [keepFirst_some]
    rcases lt_or_eq_of_le hLe with hLt | hEq
    · rw [if_pos hLt]
    · rw [if_neg (not_lt.mpr hEq.ge), if_pos hEq, ← hEq]

theorem keepFirst_of_lt {b : ℚ × List Index} (h : b.1 < entry.1) :
    keepFirst (some b) entry = some b := by
  rw [keepFirst_some, if_neg (not_lt.mpr h.le), if_neg (ne_of_gt h)]

/-- The first entry is one of the cheapest. -/
theorem foldl_keepFirst (entries : List (ℚ × List Index)) :
    (entries = [] ∧ entries.foldl keepFirst none = none) ∨
      ∃ b, entries.foldl keepFirst none = some b ∧ b ∈ entries ∧
        ∀ e ∈ entries, b.1 ≤ e.1 := by
  induction entries using reverseRecOn with
  | nil => exact .inl ⟨rfl, rfl⟩
  | append_singleton entries entry ih =>
    right
    rw [foldl_append, foldl_cons]
    rcases ih with ⟨hNil, hNone⟩ | ⟨b, hBest, hMem, hLeast⟩
    · rw [hNil]
      exact ⟨entry, rfl, by simp, by simp⟩
    · rw [hBest]
      rcases le_or_gt entry.1 b.1 with hLe | hLt
      · have hKeep : keepFirst (some b) entry = some entry := by
          apply keepFirst_of_le
          rintro _ ⟨⟩
          exact hLe
        refine ⟨entry, hKeep, by simp, ?_⟩
        exact forall_mem_concat (fun e hOld => hLe.trans (hLeast e hOld)) le_rfl
      · refine ⟨b, keepFirst_of_lt hLt, by simp [hMem], ?_⟩
        exact forall_mem_concat hLeast hLt.le

variable {entries : List (ℚ × List Index)}

theorem firstEntry_cheapest (hNe : entries ≠ []) :
    ∃ b ∈ entries, firstEntry entries = some b.2 ∧ ∀ e ∈ entries, b.1 ≤ e.1 := by
  rcases foldl_keepFirst entries with ⟨hNil, -⟩ | ⟨b, hBest, hMem, hLeast⟩
  · exact absurd hNil hNe
  · refine ⟨b, hMem, ?_, hLeast⟩
    rw [firstEntry_eq, hBest]
    rfl

/-- Of several cheapest entries the last one visited is the first of the map. -/
theorem firstEntry_last
    (h : ∀ e ∈ entries, entry.1 ≤ e.1) : firstEntry (entries ++ [entry]) = some entry.2 := by
  rw [firstEntry_eq, foldl_append, foldl_cons, keepFirst_of_le]
  · rfl
  · intro b hb
    rcases foldl_keepFirst entries with ⟨-, hNone⟩ | ⟨b', hBest, hMem, -⟩
    · rw [hNone] at hb
      cases hb
    · rw [hBest] at hb
      cases hb
      exact h b hMem

theorem firstEntry_mem {S : List Index}
    (h : firstEntry entries = some S) : ∃ cost, (cost, S) ∈ entries := by
  rw [firstEntry_eq] at h
  rcases foldl_keepFirst entries with ⟨-, hNone⟩ | ⟨b, hBest, hMem, -⟩
  · rw [hNone] at h
    cases h
  · rw [hBest] at h
    cases h
    exact ⟨b.1, hMem⟩

/-! ## The growing loop -/

/-- The cost the loop compares with is the cost it started from, so it gives up in its
first pass: it prices the additions and makes none. -/
theorem greedyGrow_eq (env : Environment) (workload : List JString) (CIs S : List Index)
    (cost : ℚ) (k fuel : Nat) :
    greedyGrow env workload CIs cost cost k fuel S = pure S ∨
      greedyGrow env workload CIs cost cost k fuel S = (do
        let _ ← CIs.foldlM (fun minI I => do
          let costd ← costOf env.server workload (.list (S ++ [I]))
          return if costd < cost then some I else minI) none
        pure S) := by
  cases fuel with
  | zero => exact .inl rfl
  | succ fuel =>
    unfold greedyGrow
    by_cases hLen : S.length < k
    · simp [hLen]
    · exact .inl (if_neg hLen)

theorem greedyGrow_ends {env : Environment} {workload : List JString} {CIs S : List Index}
    {P E : Connection → Prop}
    (hCost : ∀ I ∈ CIs, Ends P (costOf env.server workload (.list (S ++ [I]))) (fun _ => P) E)
    (cost : ℚ) (k fuel : Nat) :
    Ends P (greedyGrow env workload CIs cost cost k fuel S) (fun S' con => S' = S ∧ P con) E := by
  rcases greedyGrow_eq env workload CIs S cost k fuel with hGrow | hGrow
  · rw [hGrow]
    exact ends_pure fun _ h => ⟨rfl, h⟩
  · rw [hGrow]
    have hLoop := ends_foldlM_const CIs (none : Option Index) fun I hI minI =>
      (hCost I hI).bind (f := fun costd => pure (if costd < cost then some I else minI))
        fun _ => ends_pure fun _ h => h
    exact hLoop.bind fun _ => ends_pure fun _ h => ⟨rfl, h⟩

end PgTuning.Advisor
