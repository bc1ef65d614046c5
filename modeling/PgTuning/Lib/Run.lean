import Mathlib.Data.List.Basic

/-!
# Runs of a state machine

A machine takes labelled steps. `states` lists the states of a run, the first and
the last included; `AllSteps Ok` says that every step of a run is taken from a state
in which `Ok` holds of it. What such steps preserve holds in every state of the
run.
-/

namespace PgTuning.Lib

open List

variable {σ κ : Type} (step : σ → κ → σ)

def states (s : σ) : List κ → List σ
  | [] => [s]
  | k :: ks => s :: states (step s k) ks

/-- `Ok` holds of every step, in the state the step is taken from. -/
def AllSteps (Ok : σ → κ → Prop) (s : σ) : List κ → Prop
  | [] => True
  | k :: ks => Ok s k ∧ AllSteps Ok (step s k) ks

variable {step} {Ok : σ → κ → Prop} {I : σ → Prop}

/-- **Induction over a run.** -/
theorem invariant_of_allSteps (hStep : ∀ s k, I s → Ok s k → I (step s k)) (ks : List κ) :
    ∀ s, I s → AllSteps step Ok s ks → ∀ t ∈ states step s ks, I t := by
  induction ks with
  | nil =>
    intro s hs _
    exact forall_mem_singleton.mpr hs
  | cons k ks ih =>
    intro s hs hRun
    exact forall_mem_cons.mpr ⟨hs, ih (step s k) (hStep s k hs hRun.1) hRun.2⟩

theorem allSteps_of_forall {ks : List κ} (h : ∀ k ∈ ks, ∀ s, Ok s k) (s : σ) :
    AllSteps step Ok s ks := by
  induction ks generalizing s with
  | nil => trivial
  | cons k ks ih => exact ⟨h k mem_cons_self s, ih (fun k' hk' => h k' (mem_cons_of_mem k hk')) _⟩

theorem foldl_mem_states (ks : List κ) (s : σ) : ks.foldl step s ∈ states step s ks := by
  induction ks generalizing s with
  | nil => exact mem_singleton.mpr rfl
  | cons k ks ih => exact mem_cons_of_mem _ (ih (step s k))

theorem allSteps_append (ks ks' : List κ) (s : σ) :
    AllSteps step Ok s (ks ++ ks') ↔
      AllSteps step Ok s ks ∧ AllSteps step Ok (ks.foldl step s) ks' := by
  induction ks generalizing s with
  | nil => simp [AllSteps]
  | cons k ks ih => simp [AllSteps, ih, and_assoc]

theorem invariant_of_steps (hStep : ∀ s k, I s → I (step s k))
    (ks : List κ) (s : σ) (hs : I s) : ∀ t ∈ states step s ks, I t := by
  have hAll : AllSteps step (fun _ _ => True) s ks := allSteps_of_forall (fun _ _ _ => trivial) s
  exact invariant_of_allSteps (fun s k hI _ => hStep s k hI) ks s hs hAll

end PgTuning.Lib
