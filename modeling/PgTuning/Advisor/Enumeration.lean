import Mathlib.Data.Finset.Card
import PgTuning.Advisor.Coverage

/-!
# The two enumerations of subsets

`deploy` lists the configurations of a part by counting through the bit masks of its length;
`getSubsets` walks down the list with one set that it shares between the branch with the next
element and the branch without it. Neither misses a subset or lists one twice.
-/

namespace PgTuning.Advisor

open PgTuning.Lib PgTuning.Lib.Attempt List Nat

/-! ## Bit masks -/

variable {ix S : List Index} {j : Nat}

theorem pickBits_sublist (ix : List Index) (j : Nat) : (pickBits ix j).Sublist ix := by
  induction ix generalizing j with
  | nil => exact .refl []
  | cons i ix ih =>
    unfold pickBits
    split_ifs
    · exact (ih _).cons_cons i
    · exact (ih _).cons i

theorem exists_pickBits (h : S.Sublist ix) : ∃ j < 2 ^ ix.length, pickBits ix j = S := by
  induction h with
  | slnil => exact ⟨0, one_pos, rfl⟩
  | @cons S ix i _ ih =>
    obtain ⟨j, hj, rfl⟩ := ih
    refine ⟨2 * j, by rw [length_cons]; omega, ?_⟩
    rw [pickBits, if_neg (by omega), Nat.mul_div_cancel_left _ Nat.two_pos]
  | @cons_cons S ix i _ ih =>
    obtain ⟨j, hj, rfl⟩ := ih
    refine ⟨2 * j + 1, by rw [length_cons]; omega, ?_⟩
    rw [pickBits, if_pos (by omega), show (2 * j + 1) / 2 = j by omega]

/-- Different masks pick different members: the lowest bit decides about the first. -/
theorem pickBits_inj (hIx : ix.Nodup) {j' : Nat} (hj : j < 2 ^ ix.length) (hj' : j' < 2 ^ ix.length)
    (h : pickBits ix j = pickBits ix j') : j = j' := by
  induction ix generalizing j j' with
  | nil =>
    rw [length_nil] at hj hj'
    omega
  | cons i ix ih =>
    obtain ⟨hi, hIx⟩ := nodup_cons.mp hIx
    have hOut : ∀ j, i ∉ pickBits ix j := fun j hMem => hi ((pickBits_sublist ix j).subset hMem)
    rw [length_cons] at hj hj'
    have hHalf : pickBits ix (j / 2) = pickBits ix (j' / 2) → j / 2 = j' / 2 :=
      ih hIx (by omega) (by omega)
    unfold pickBits at h
    split_ifs at h with hOne hOne' hOne'
    · have := hHalf (cons.inj h).2
      omega
    · exact absurd (h ▸ mem_cons_self) (hOut _)
    · exact absurd (h ▸ mem_cons_self) (hOut _)
    · have := hHalf h
      omega

theorem pickBits_zero (ix : List Index) : pickBits ix 0 = [] := by
  induction ix with
  | nil => rfl
  | cons i ix ih => exact ih

theorem configurations_eq (hLen : ix.length ≤ 30) :
    configurations ix = (range' 1 (2 ^ ix.length - 1)).map (pickBits ix) := by
  have hShl : oneShl ix.length = (2 ^ ix.length : Nat) := by
    unfold oneShl
    rw [if_neg (by omega), mod_eq_of_lt (by omega)]
    simp
  rw [configurations, hShl, Int.toNat_natCast]

/-- **The configurations of a part** are its non-empty sublists, each once. -/
theorem configurations_exact (hIx : ix.Nodup) (hLen : ix.length ≤ 30) :
    (configurations ix).Nodup ∧ ∀ S, S ∈ configurations ix ↔ S.Sublist ix ∧ S ≠ [] := by
  have hPos : 0 < 2 ^ ix.length := Nat.two_pow_pos _
  rw [configurations_eq hLen]
  constructor
  · refine Nodup.map_on ?_ nodup_range'
    intro j hj j' hj' h
    rw [mem_range'_1] at hj hj'
    exact pickBits_inj hIx (by omega) (by omega) h
  · intro S
    rw [mem_map]
    constructor
    · rintro ⟨j, hj, rfl⟩
      rw [mem_range'_1] at hj
      refine ⟨pickBits_sublist ix j, fun hNil => ?_⟩
      have := pickBits_inj hIx (by omega) hPos (hNil.trans (pickBits_zero ix).symm)
      omega
    · rintro ⟨hSub, hNe⟩
      obtain ⟨j, hj, rfl⟩ := exists_pickBits hSub
      refine ⟨j, ?_, rfl⟩
      rw [mem_range'_1]
      have : j ≠ 0 := by
        rintro rfl
        exact hNe (pickBits_zero ix)
      omega

/-! ## What `deploy` stores -/

section Deploy

variable {σ : Type} (p : Prober σ)

/-- The loop of `deploy` over the first `n` parts. -/
def deployParts (part : List (List Index)) (n : Nat) : MasterM σ Unit :=
  forM (range n) fun i => do
    let ix ← elemAt part i
    deployPart p i ix

/-- Tuner `i` holds the configurations of `ix`, with the values that `updateCand` computes
for them, one after the other, once the parts before have been deployed from `s`. -/
def Enumerated (part : List (List Index)) (s : MasterState σ) (i : Nat) (ix : List Index)
    (t : IndexTuner) : Prop :=
  ∃ ws before after, t.curCand = some (configurations ix) ∧ t.w = some ws ∧
    deployParts p part i s = .ok () before ∧
    (configurations ix).mapM (fun X => updateCand p X ix)
      (modifyTuner i (fun t => { t with allCand := some ix }) before) = .ok ws after

variable {p} {part : List (List Index)} {s : MasterState σ}

theorem deployParts_enumerated (n : Nat) {u : MasterState σ}
    (h : deployParts p part n s = .ok () u) :
    ∀ i < n, ∀ ix, part[i]? = some ix → Enumerated p part s i ix (u.master.ik i) := by
  induction n generalizing u with
  | zero => exact fun i hi => absurd hi (not_lt_zero i)
  | succ n ih =>
    unfold deployParts at h
    rw [range_succ, forM_append] at h
    obtain ⟨⟨⟩, s₁, hInit, hLast⟩ := bind_eq_ok.mp h
    obtain ⟨⟨⟩, s₂, hBody, hNil⟩ := bind_eq_ok.mp hLast
    cases hNil
    obtain ⟨ix, s₃, hElem, hPart⟩ := bind_eq_ok.mp hBody
    obtain ⟨hGet, hs₃⟩ := elemAt_eq_ok hElem
    rw [hs₃] at hPart
    obtain ⟨ws, after, hLoop, rfl⟩ := deployPart_ok hPart
    refine (Function.forall_update_iff _ fun i t => i < n + 1 → ∀ ix, part[i]? = some ix →
      Enumerated p part s i ix t).mpr ⟨?_, fun i hNe hi => ih hInit i (by omega)⟩
    rintro - ix' hIx
    cases hGet.symm.trans hIx
    exact ⟨ws, s₁, after, rfl, rfl, hInit, hLoop⟩

theorem deploy_enumerated {u : MasterState σ} (h : deploy p part s = .ok () u) :
    ∀ i < min k part.length, ∀ ix, part[i]? = some ix →
      Enumerated p part s i ix (u.master.ik i) := by
  obtain ⟨⟨⟩, s₁, hLoop, hFirst⟩ := bind_eq_ok.mp h
  cases hFirst
  exact deployParts_enumerated (u := s₁) _ hLoop

end Deploy

/-! ## The shared set -/

theorem getSubsets_distinct {α : Type} [DecidableEq α] {k : Int} {rest current : List α}
    (h : (current ++ rest).Nodup) : ((getSubsets k rest current).map toFinset).Nodup := by
  induction rest generalizing current with
  | nil =>
    unfold getSubsets
    split_ifs <;> simp
  | cons x rest ih =>
    unfold getSubsets
    split_ifs with hFull
    · simp
    obtain ⟨hx, hOthers⟩ := nodup_cons.mp (nodup_middle.mp h)
    rw [map_append]
    refine (ih (by simpa using h)).append (ih hOthers) ?_
    -- the sets of the first branch have `x`, those of the second have not
    rintro _ hTake hSkip
    obtain ⟨S, hS, rfl⟩ := mem_map.mp hTake
    obtain ⟨S', hS', hEq⟩ := mem_map.mp hSkip
    obtain ⟨-, T, hT, rfl⟩ := mem_getSubsets.mp hS
    obtain ⟨-, T', hT', rfl⟩ := mem_getSubsets.mp hS'
    have hIn : x ∈ (current ++ T').toFinset := by
      rw [hEq]
      simp
    rw [mem_toFinset] at hIn
    exact hx ((hT'.append_left current).subset hIn)

/-- **Both enumerations are complete and free of duplicates**: after a deployment that ends
normally, for a part of up to 30 different indexes; and for the subsets of every size of a
list of different integers. -/
theorem enumerations_exact :
    (∀ {σ : Type} (p : Prober σ) (part : List (List Index)) (s u : MasterState σ),
      deploy p part s = .ok () u → ∀ i < k, ∀ ix, part[i]? = some ix → ix.Nodup →
      ix.length ≤ 30 →
      ∃ curCand w, (u.master.ik i).curCand = some curCand ∧ (u.master.ik i).w = some w ∧
        curCand.Nodup ∧ (∀ S, S ∈ curCand ↔ S.Sublist ix ∧ S ≠ []) ∧
        w.length = curCand.length ∧
        ∃ before after, deployParts p part i s = .ok () before ∧
          curCand.mapM (fun X => updateCand p X ix)
            (modifyTuner i (fun t => { t with allCand := some ix }) before) = .ok w after) ∧
    ∀ (superSet : List Int) (k : Int), superSet.Nodup →
      ((getSubsets k superSet []).map toFinset).Nodup ∧
      ∀ S : Finset Int, S ∈ (getSubsets k superSet []).map toFinset ↔
        S ⊆ superSet.toFinset ∧ S.card = k := by
  constructor
  · intro σ p part s u hRun i hi ix hGet hIx hLen
    have hBound : i < part.length := (List.getElem?_eq_some_iff.mp hGet).1
    obtain ⟨ws, before, after, hCur, hw, hBefore, hLoop⟩ :=
      deploy_enumerated hRun i (by omega) ix hGet
    obtain ⟨hNodup, hMem⟩ := configurations_exact hIx hLen
    exact ⟨_, ws, hCur, hw, hNodup, hMem, (partLoop_master hLoop).2, before, after, hBefore, hLoop⟩
  · intro superSet k hDistinct
    refine ⟨getSubsets_distinct (by simpa using hDistinct), fun S => ?_⟩
    rw [mem_map]
    constructor
    · rintro ⟨T, hT, rfl⟩
      obtain ⟨hLen, T, hSub, rfl⟩ := mem_getSubsets.mp hT
      refine ⟨fun x hx => ?_, by rw [toFinset_card_of_nodup (hSub.nodup hDistinct), hLen]⟩
      rw [mem_toFinset] at hx ⊢
      exact hSub.subset hx
    · rintro ⟨hSub, hCard⟩
      have hSet : (superSet.filter (· ∈ S)).toFinset = S := by
        ext x
        simpa using fun hx => mem_toFinset.mp (hSub hx)
      refine ⟨superSet.filter (· ∈ S), mem_getSubsets.mpr ⟨?_, _, filter_sublist, rfl⟩, hSet⟩
      rw [← hCard, ← toFinset_card_of_nodup (hDistinct.filter _), hSet]

/-- The second part has two indexes, hence three configurations. -/
def unevenParts : List (List Index) :=
  [[candidateOn 1 'a'], [candidateOn 2 'b', candidateOn 3 'c']]

theorem enumerations_exact_unevenParts :
    (∃ u curCand before after,
      deploy (connectionProber calmServer) unevenParts secondQueryState = .ok () u ∧
      (u.master.ik 1).curCand = some curCand ∧ (u.master.ik 1).w = some [1, 0, 0] ∧
      [candidateOn 3 'c'] ∈ curCand ∧ [candidateOn 2 'b', candidateOn 3 'c'] ∈ curCand ∧
      deployParts (connectionProber calmServer) unevenParts 1 secondQueryState = .ok () before ∧
      curCand.mapM (fun X => updateCand (connectionProber calmServer) X
          [candidateOn 2 'b', candidateOn 3 'c'])
        (modifyTuner 1 (fun t => { t with
          allCand := some [candidateOn 2 'b', candidateOn 3 'c'] }) before) =
        .ok [1, 0, 0] after) ∧
    ((getSubsets 2 [1, 2, 3] []).map (toFinset (α := Int))).Nodup := by
  refine ⟨?_, (enumerations_exact.2 [1, 2, 3] 2 (by decide)).1⟩
  have hRun := run_of_returned
    (show returned (deploy (connectionProber calmServer) unevenParts) secondQueryState =
      some () by decide +kernel)
  have hStored : ((finalState (deploy (connectionProber calmServer) unevenParts)
      secondQueryState).master.ik 1).w = some [1, 0, 0] := by decide +kernel
  obtain ⟨curCand, w, hCur, hw, -, hMem, -, before, after, hBefore, hLoop⟩ :=
    enumerations_exact.1 _ _ _ _ hRun 1 (by decide) _ rfl (by decide) (by decide)
  cases hw.symm.trans hStored
  exact ⟨_, curCand, before, after, hRun, hCur, hw, (hMem _).mpr ⟨.cons _ (.refl _), by simp⟩,
    (hMem _).mpr ⟨.refl _, by simp⟩, hBefore, hLoop⟩

end PgTuning.Advisor
