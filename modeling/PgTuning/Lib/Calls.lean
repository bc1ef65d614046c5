import Mathlib.Order.Basic

/-!
# Calls until nothing comes

A source is called again and again; a call returns an element, or nothing at the end.
-/

namespace PgTuning.Lib

variable {σ α : Type}

/-- The calls return these elements and then nothing. -/
inductive Returns (next : σ → Option α × σ) : σ → List α → Prop
  | null {s s' : σ} (h : next s = (none, s')) : Returns next s []
  | row {s s' : σ} {a : α} {as : List α} (h : next s = (some a, s')) (hRest : Returns next s' as) :
    Returns next s (a :: as)

/-- What a call has returned, and what the calls after it return. -/
def Leads (next : σ → Option α × σ) (as : List α) : Option α × σ → Prop
  | (none, _) => as = []
  | (some a, s) => ∃ rest, as = a :: rest ∧ Returns next s rest

theorem Leads.returns {next : σ → Option α × σ} {as : List α} {s : σ}
    (h : Leads next as (next s)) : Returns next s as := by
  cases hNext : next s with
  | mk result s' =>
    rw [hNext] at h
    cases result with
    | none => exact h ▸ .null hNext
    | some a =>
      obtain ⟨rest, rfl, hRest⟩ := h
      exact .row hNext hRest

end PgTuning.Lib
