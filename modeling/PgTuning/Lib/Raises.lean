import Mathlib.Data.List.Forall2
import PgTuning.Lib.Attempt

/-!
# Which exceptions an attempt can raise

`Raises X P m Q`: from every state with `P` the run ends normally with `Q`, or it throws one of the
exceptions in `X`. What is known about the states (an `Ends` triple) is joined to what is known
about the exceptions by `Raises.join`, so that neither is proved twice.
-/

namespace PgTuning.Lib.Attempt

variable {ε σ τ α β : Type} {X : ε → Prop}

/-- From every state with `P`, the run ends normally with `Q` or throws an
exception in `X`. -/
abbrev Raises (X : ε → Prop) (P : σ → Prop) (m : Attempt ε σ α) (Q : α → σ → Prop) : Prop :=
  Triple P m Q fun e _ => X e

/-- The run keeps `I` unless it throws an exception in `X`. -/
abbrev Maintains (X : ε → Prop) (I : σ → Prop) (m : Attempt ε σ α) : Prop :=
  Raises X I m fun _ => I

/-- What a failed run threw. -/
def thrown (m : Attempt ε σ α) (s : σ) : Option ε :=
  match m s with
  | .ok _ _ => none
  | .error e _ => some e

variable {m : Attempt ε σ α} {s : σ} {P : σ → Prop} {Q Q' : α → σ → Prop} {I : σ → Prop}

theorem thrown_eq_some {e : ε} : thrown m s = some e ↔ ∃ t, m s = .error e t := by
  unfold thrown
  cases m s with
  | ok a t => simp
  | error e' t => simp

section

variable (h : Raises X P m Q)
include h

theorem Raises.thrown (hP : P s) {e : ε} (hThrown : thrown m s = some e) : X e := by
  obtain ⟨t, hRun⟩ := thrown_eq_some.mp hThrown
  have hs := h s hP
  rw [hRun] at hs
  exact hs

theorem Raises.weaken {P' : σ → Prop} (hP : ∀ s, P' s → P s) (hQ : ∀ a s, Q a s → Q' a s) :
    Raises X P' m Q' :=
  h.imp hP hQ fun _ _ h => h

/-- The states come from an `Ends` triple, the exceptions from a `Raises` one. -/
theorem Raises.join {P' E : σ → Prop} (hEnds : Ends P' m Q' E) :
    Raises X (fun s => P s ∧ P' s) m (fun a s => Q a s ∧ Q' a s) := by
  intro s hs
  have hEnd := h s hs.1
  have hState := hEnds s hs.2
  revert hEnd hState
  cases m s with
  | ok a t => exact fun hQ hQ' => ⟨hQ, hQ'⟩
  | error e t => exact fun hX _ => hX

end

/-- A handler is not needed for a part that returns. -/
theorem Raises.tryCatch {f : ε → Attempt ε σ α} (h : Raises (fun _ => False) P m Q) :
    Raises X P (MonadExcept.tryCatch m f) Q := by
  intro s hs
  obtain ⟨a, t, hRun, hQ⟩ := h.returns hs
  rw [tryCatch_run, hRun]
  exact hQ

theorem raises_zoom {J : τ → Prop} {K : α → τ → Prop} {view : σ → τ} {put : σ → τ → σ}
    {m : Attempt ε τ α} (hm : Raises X J m K) (hView : ∀ s, P s → J (view s))
    (hPut : ∀ s a t, P s → K a t → Q a (put s t)) : Raises X P (zoom view put m) Q := by
  intro s hs
  have h := hm (view s) (hView s hs)
  unfold zoom
  revert h
  cases m (view s) with
  | ok a t => exact hPut s a t hs
  | error e t => exact id

/-- A collecting loop: one value for each element, each with `V`. -/
theorem raises_mapM {V : α → β → Prop} {f : α → Attempt ε σ β} (xs : List α)
    (hStep : ∀ x ∈ xs, Raises X I (f x) (fun b s => V x b ∧ I s)) :
    Raises X I (xs.mapM f) (fun bs s => List.Forall₂ V xs bs ∧ I s) := by
  refine Triple.pre (ends_mapM (I := fun done bs s => List.Forall₂ V done bs ∧ I s) xs ?_)
    fun s hs => ⟨.nil, hs⟩
  intro pre x post bs hSplit s hs
  refine ((hStep x (by simp [hSplit])).post fun b t ht => ?_) s hs.2
  exact ⟨List.rel_append hs.1 (.cons ht.1 .nil), ht.2⟩

end PgTuning.Lib.Attempt
