import Mathlib.Logic.Basic

/-!
# Outcomes of computations that can be rejected

`Except ε α` is the result of a check or a translation. `Yields P x` says what a returned value
satisfies, and `Related R x y` compares two runs: they are rejected with the same error, or they
return related values. Both compose along `>>=`.
-/

namespace PgTuning.Lib.Outcome

variable {ε α β γ δ : Type}

def rejectIf (c : Bool) (e : ε) : Except ε Unit :=
  if c then .error e else .ok ()

/-! ## What is returned -/

/-- Every value returned satisfies `P`. -/
structure Yields (P : α → Prop) (x : Except ε α) : Prop where
  ok : ∀ a, x = .ok a → P a

variable {P : α → Prop} {f : α → Except ε β} {x : Except ε α} {R : α → β → Prop}
  {y : Except ε β} {S : γ → δ → Prop} {Q : β → Prop}

theorem yields_pure {a : α} (h : P a) : Yields P (pure a : Except ε α) := by
  refine ⟨fun b hb => ?_⟩
  cases hb
  exact h

theorem yields_true (x : Except ε α) : Yields (fun _ => True) x :=
  ⟨fun _ _ => trivial⟩

theorem Yields.bind (hx : Yields P x) (hf : ∀ a, P a → Yields Q (f a)) : Yields Q (x >>= f) := by
  refine ⟨fun b hb => ?_⟩
  cases hRun : x with
  | error e =>
    rw [hRun] at hb
    cases hb
  | ok a =>
    rw [hRun] at hb
    exact (hf a (hx.ok a hRun)).ok b hb

/-- After a step whose value does not matter. -/
theorem Yields.after (hf : ∀ a, Yields Q (f a)) : Yields Q (x >>= f) :=
  (yields_true x).bind fun a _ => hf a

theorem Yields.ite {c : Prop} [Decidable c] {y : Except ε α} (hx : Yields P x)
    (hy : Yields P y) : Yields P (if c then x else y) := by
  by_cases h : c
  · rw [if_pos h]
    exact hx
  · rw [if_neg h]
    exact hy

theorem yields_foldlM {P : β → Prop} {f : β → α → Except ε β} :
    ∀ (xs : List α) (b : β), P b → (∀ b, P b → ∀ x ∈ xs, Yields P (f b x)) →
      Yields P (xs.foldlM f b) := by
  intro xs
  induction xs with
  | nil =>
    intro b hb _
    exact yields_pure hb
  | cons x xs ih =>
    intro b hb hStep
    apply (hStep b hb x (by simp)).bind
    intro b' hb'
    exact ih b' hb' fun c hc y hy => hStep c hc y (by simp [hy])

theorem bind_eq_ok {b : β} : x >>= f = .ok b ↔ ∃ a, x = .ok a ∧ f a = .ok b := by
  cases x with
  | error e =>
    constructor
    · intro h
      cases h
    · rintro ⟨a, h, _⟩
      cases h
  | ok a =>
    constructor
    · intro h
      exact ⟨a, rfl, h⟩
    · rintro ⟨a', h, hf⟩
      cases h
      exact hf

/-! ## Comparing two runs -/

/-- The runs are rejected alike, or return values related by `R`. -/
inductive Related (R : α → β → Prop) : Except ε α → Except ε β → Prop where
  | ok {a : α} {b : β} (h : R a b) : Related R (.ok a) (.ok b)
  | error (e : ε) : Related R (.error e) (.error e)

theorem related_refl {R : α → α → Prop} (hR : ∀ a, R a a) (x : Except ε α) : Related R x x := by
  cases x with
  | ok a => exact .ok (hR a)
  | error e => exact .error e

theorem Related.weaken {S : α → β → Prop} (h : Related R x y) (hRS : ∀ a b, R a b → S a b) :
    Related S x y := by
  cases h with
  | ok h => exact .ok (hRS _ _ h)
  | error e => exact .error e

theorem Related.bind {f : α → Except ε γ} {g : β → Except ε δ} (h : Related R x y)
    (hf : ∀ a b, R a b → Related S (f a) (g b)) : Related S (x >>= f) (y >>= g) := by
  cases h with
  | ok h => exact hf _ _ h
  | error e => exact .error e

/-- The same first part, then related continuations. -/
theorem Related.after {f : α → Except ε γ} {g : α → Except ε δ}
    (hf : ∀ a, Related S (f a) (g a)) : Related S (x >>= f) (x >>= g) := by
  cases x with
  | ok a => exact hf a
  | error e => exact .error e

/-- A rejected run is compared with the same rejection. -/
theorem Related.eq_error (h : Related R x y) {e : ε} (hx : x = .error e) : y = .error e := by
  cases h with
  | ok h => cases hx
  | error e' =>
    cases hx
    rfl

end PgTuning.Lib.Outcome
