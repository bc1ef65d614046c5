import PgTuning.Lib.Attempt

/-!
# Attempts that keep a log

`Traces log P m Q out` follows the state as a triple does, and the log beside it: a run that
returns has appended `out`, and one that fails a first part of it. The loop rule takes the
log of one pass and gives that of the whole loop.
-/

namespace PgTuning.Lib.Attempt

open List

variable {ε σ α β γ : Type} {log : σ → List γ} {P : σ → Prop} {out out' : List γ}

/-- From `P`, the run appends `out` and ends with `Q`, or fails after a first part of it. -/
def Traces (log : σ → List γ) (P : σ → Prop) (m : Attempt ε σ α) (Q : α → σ → Prop)
    (out : List γ) : Prop :=
  ∀ start, Ends (fun s => P s ∧ log s = start) m (fun a s => Q a s ∧ log s = start ++ out)
    (fun s => ∃ part, part <+: out ∧ log s = start ++ part)

variable {Q R : α → σ → Prop} {m : Attempt ε σ α} {f : α → Attempt ε σ β}
  {calls : α → List γ}

theorem Ends.traces
    (h : ∀ start, Ends (fun s => P s ∧ log s = start) m (fun a s => Q a s ∧ log s = start)
      (fun s => log s = start)) : Traces log P m Q [] := by
  intro start
  apply (h start).weaken fun _ hs => hs
  · intro a s hs
    rw [append_nil]
    exact hs
  · intro s hs
    exact ⟨[], prefix_rfl, by rw [append_nil, hs]⟩

theorem traces_pure {a : α} (h : ∀ s, P s → Q a s) : Traces log P (pure a : Attempt ε σ α) Q [] :=
  Ends.traces fun _ => ends_pure fun s hs => ⟨h s hs.1, hs.2⟩

theorem traces_modify {Q : PUnit → σ → Prop} {f : σ → σ}
    (h : ∀ s, P s → Q ⟨⟩ (f s) ∧ log (f s) = log s ++ out) :
    Traces log P (modify f : Attempt ε σ PUnit) Q out := by
  intro start
  apply ends_modify
  rintro s ⟨hs, rfl⟩
  exact h s hs

theorem traces_modify_silent {Q : PUnit → σ → Prop} {f : σ → σ}
    (h : ∀ s, P s → Q ⟨⟩ (f s) ∧ log (f s) = log s) :
    Traces log P (modify f : Attempt ε σ PUnit) Q [] :=
  traces_modify fun s hs => ⟨(h s hs).1, by rw [(h s hs).2, append_nil]⟩

theorem traces_throw {e : ε} : Traces log P (throw e : Attempt ε σ α) Q out := by
  intro start
  apply ends_throw
  rintro s ⟨-, hs⟩
  exact ⟨[], nil_prefix, by rw [append_nil, hs]⟩

theorem traces_get_bind {f : σ → Attempt ε σ β} {Q : β → σ → Prop}
    (h : ∀ s, P s → Traces log (fun t => t = s) (f s) Q out) : Traces log P (get >>= f) Q out := by
  intro start
  apply ends_get_bind
  rintro s ⟨hs, rfl⟩
  apply (h s hs _).weaken _ (fun _ _ h => h) fun _ h => h
  rintro t rfl
  exact ⟨rfl, rfl⟩

theorem Traces.weaken {P' : σ → Prop} {Q' : α → σ → Prop} (h : Traces log P m Q out)
    (hP : ∀ s, P' s → P s) (hQ : ∀ a s, Q a s → Q' a s) :
    Traces log P' m Q' out := fun start =>
  (h start).weaken (fun s hs => ⟨hP s hs.1, hs.2⟩) (fun a s hs => ⟨hQ a s hs.1, hs.2⟩)
    fun _ hs => hs

theorem Traces.fromState (h : Traces log P m Q out) {s : σ} (hs : P s) :
    Traces log (fun t => t = s) m Q out := by
  apply h.weaken _ fun _ _ h => h
  rintro t rfl
  exact hs

/-- A precondition that does not concern the state is an assumption. -/
theorem traces_of_and {φ : Prop} (h : φ → Traces log P m Q out) :
    Traces log (fun s => φ ∧ P s) m Q out :=
  fun start s hs => h hs.1.1 start s ⟨hs.1.2, hs.2⟩

theorem traces_throwIf {c : Bool} {e : ε} : Traces log P (throwIf c e) (fun _ => P) [] := by
  cases c with
  | true => exact traces_throw
  | false => exact traces_pure fun _ hs => hs

theorem traces_runIf {c : Bool} {m : Attempt ε σ PUnit} (h : c → Traces log P m (fun _ => P) out) :
    Traces log P (runIf c m) (fun _ => P) (if c then out else []) := by
  cases c with
  | true => exact h rfl
  | false => exact traces_pure fun _ hs => hs

theorem Traces.runIf {c : Bool} {m : Attempt ε σ PUnit} (h : Traces log P m (fun _ => P) []) :
    Traces log P (runIf c m) (fun _ => P) [] := by
  have hIf := traces_runIf (c := c) fun _ => h
  rwa [ite_self] at hIf

section

variable {Q : β → σ → Prop}

/-- Sequencing appends the logs. -/
theorem Traces.bind (hFirst : Traces log P m R out) (hRest : ∀ a, Traces log (R a) (f a) Q out') :
    Traces log P (m >>= f) Q (out ++ out') := by
  intro start
  apply ((hFirst start).orElse _).bind
  · intro a
    apply (hRest a (start ++ out)).weaken fun _ hs => hs
    · intro b s hs
      rw [← append_assoc]
      exact hs
    · rintro s ⟨part, hPart, hLog⟩
      refine ⟨out ++ part, (prefix_append_right_inj out).mpr hPart, ?_⟩
      rw [hLog, append_assoc]
  · rintro s ⟨part, hPart, hLog⟩
    exact ⟨part, hPart.trans (prefix_append out out'), hLog⟩

theorem Traces.silent_bind (hFirst : Traces log P m R [])
    (hRest : ∀ a, Traces log (R a) (f a) Q out) : Traces log P (m >>= f) Q out :=
  hFirst.bind hRest

theorem Traces.bind_value {a : α} {R : σ → Prop}
    (hFirst : Traces log P m (fun b s => b = a ∧ R s) []) (hRest : Traces log R (f a) Q out) :
    Traces log P (m >>= f) Q out := by
  apply hFirst.silent_bind
  intro b
  apply traces_of_and
  rintro rfl
  exact hRest

theorem Traces.bind_silent (hFirst : Traces log P m R out)
    (hRest : ∀ a, Traces log (R a) (f a) Q []) : Traces log P (m >>= f) Q out := by
  have hBoth := hFirst.bind hRest
  rw [append_nil] at hBoth
  exact hBoth

end

theorem traces_foldlM {I : List α → β → σ → Prop} {f : β → α → Attempt ε σ β} (xs : List α) (b : β)
    (hStep : ∀ pre x post b, xs = pre ++ x :: post →
      Traces log (I pre b) (f b x) (I (pre ++ [x])) (calls x)) :
    Traces log (I [] b) (xs.foldlM f b) (I xs) (xs.flatMap calls) := by
  induction xs generalizing I b with
  | nil => exact traces_pure fun _ hs => hs
  | cons x xs ih =>
    refine (hStep [] x xs b rfl).bind fun b' => ?_
    refine ih (I := fun pre => I (x :: pre)) b' fun pre y post c hSplit => ?_
    exact hStep (x :: pre) y post c (by rw [hSplit]; rfl)

theorem traces_forM {I : σ → Prop} {f : α → Attempt ε σ PUnit} (xs : List α)
    (hStep : ∀ x ∈ xs, Traces log I (f x) (fun _ => I) (calls x)) :
    Traces log I (forM xs f) (fun _ => I) (xs.flatMap calls) := by
  rw [forM_eq_foldlM]
  refine traces_foldlM (I := fun _ _ => I) xs PUnit.unit ?_
  intro pre x post _ hSplit
  exact hStep x (by rw [hSplit]; simp)

/-- The logs of the positions of a list, in order, are those of its elements. -/
theorem flatMap_range (xs : List α) :
    (List.range xs.length).flatMap (fun i => (xs[i]?).elim [] calls) = xs.flatMap calls := by
  induction xs with
  | nil => rfl
  | cons x xs ih =>
    rw [length_cons, range_succ_eq_map, flatMap_cons, flatMap_map, flatMap_cons, ← ih]
    rfl

end PgTuning.Lib.Attempt
