import Mathlib.Data.List.Basic

/-!
# Attempts: stateful computations whose failures keep the state

An imperative method that throws does not undo what it did before the throw. `Attempt ε σ α` is the
standard `EStateM` at that reading: a failing run still returns the state it reached.

*Inversion* (`bind_eq_ok` and its companions) takes a run that ended normally apart into the runs of
its parts. *Triples* (`Triple P m Q X`) have two postconditions, one for the normal end and one for
the exceptional end; they compose through `Triple.bind` and through one loop rule, `ends_forM`, whose
invariant may mention the elements handled so far. `Ends` forgets which exception it was.
-/

namespace PgTuning.Lib

open List

/-- A computation over a state `σ` that returns an `α` or fails with an `ε`;
the state reached is kept in both cases. -/
abbrev Attempt (ε σ α : Type) : Type := EStateM ε σ α

namespace Attempt

variable {ε σ τ α β : Type}

/-! ## Runs of the primitive computations -/

@[simp] theorem pure_run (a : α) (s : σ) :
    (pure a : Attempt ε σ α) s = .ok a s := rfl

@[simp] theorem get_run (s : σ) : (get : Attempt ε σ σ) s = .ok s s := rfl

@[simp] theorem modify_run (f : σ → σ) (s : σ) :
    (modify f : Attempt ε σ PUnit) s = .ok ⟨⟩ (f s) := rfl

theorem bind_run (m : Attempt ε σ α) (f : α → Attempt ε σ β) (s : σ) :
    (m >>= f) s = match m s with
      | .ok a t => f a t
      | .error e t => .error e t := rfl

variable {a : α} {m : Attempt ε σ α} {s t u : σ} {f : α → Attempt ε σ β}
  {I E E' P P' R : σ → Prop} {Q Q' : α → σ → Prop} {put : σ → τ → σ} {n : Attempt ε σ β}
  {view : σ → τ}

theorem bind_run_ok (hRun : m s = .ok a t) (f : α → Attempt ε σ β) : (m >>= f) s = f a t := by
  rw [bind_run, hRun]

theorem bind_run_error {e : ε} (hRun : m s = .error e t) (f : α → Attempt ε σ β) :
    (m >>= f) s = .error e t := by
  rw [bind_run, hRun]

theorem tryCatch_run (m : Attempt ε σ α) (f : ε → Attempt ε σ α) (s : σ) :
    tryCatch m f s = match m s with
      | .ok a t => .ok a t
      | .error e t => f e t := by
  show EStateM.tryCatch m f s = _
  unfold EStateM.tryCatch
  cases m s <;> rfl

/-! ## Inversion of normal runs -/

/-- Two sequences with the same first part agree when their second parts agree
wherever the first part can lead. -/
theorem bind_run_congr {g : α → Attempt ε σ β} (h : ∀ a t, m s = .ok a t → f a t = g a t) :
    (m >>= f) s = (m >>= g) s := by
  rw [bind_run, bind_run]
  cases hRun : m s with
  | ok a t => exact h a t hRun
  | error e t => rfl

theorem bind_eq_ok {b : β} : (m >>= f) s = .ok b u ↔ ∃ a t, m s = .ok a t ∧ f a t = .ok b u := by
  rw [bind_run]
  constructor
  · intro h
    cases hRun : m s with
    | ok a t => exact ⟨a, t, rfl, by rw [hRun] at h; exact h⟩
    | error e t => rw [hRun] at h; cases h
  · rintro ⟨a, t, hRun, h⟩
    rw [hRun]
    exact h

theorem mapM_cons_eq_ok {x : α} {xs : List α} {bs : List β} :
    (x :: xs).mapM f s = .ok bs u ↔
      ∃ b t bs', f x s = .ok b t ∧ xs.mapM f t = .ok bs' u ∧ bs = b :: bs' := by
  rw [mapM_cons, bind_eq_ok]
  constructor
  · rintro ⟨b, t, hHead, hTail⟩
    obtain ⟨bs', t', hTail, hPure⟩ := bind_eq_ok.mp hTail
    cases hPure
    exact ⟨b, t, bs', hHead, hTail, rfl⟩
  · rintro ⟨b, t, bs', hHead, hTail, rfl⟩
    exact ⟨b, t, hHead, bind_eq_ok.mpr ⟨bs', u, hTail, rfl⟩⟩

theorem mapM_runs {g : α → β} :
    ∀ xs : List α, (∀ x ∈ xs, ∀ s, I s → ∃ t, f x s = .ok (g x) t ∧ I t) →
      ∀ s, I s → ∃ t, xs.mapM f s = .ok (xs.map g) t ∧ I t := by
  intro xs
  induction xs with
  | nil =>
    intro _ s hs
    exact ⟨s, rfl, hs⟩
  | cons x xs ih =>
    intro hPass s hs
    obtain ⟨t, hHead, ht⟩ := hPass x (by simp) s hs
    obtain ⟨u, hTail, hu⟩ := ih (fun y hy => hPass y (by simp [hy])) t ht
    exact ⟨u, mapM_cons_eq_ok.mpr ⟨g x, t, xs.map g, hHead, hTail, rfl⟩, hu⟩

/-- The value a run returns, if it returns. -/
def returned (m : Attempt ε σ α) (s : σ) : Option α :=
  match m s with
  | .ok a _ => some a
  | .error _ _ => none

/-- The state a run leaves, however it ends. -/
def finalState (m : Attempt ε σ α) (s : σ) : σ :=
  match m s with
  | .ok _ t => t
  | .error _ t => t

theorem run_of_returned (h : returned m s = some a) : m s = .ok a (finalState m s) := by
  unfold returned at h
  unfold finalState
  revert h
  cases m s with
  | ok b t =>
    rintro ⟨⟩
    rfl
  | error e t => exact nofun

/-! ## Zooming into a part of the state -/

/-- Run a computation on the part of the state that `view` reads and `put`
writes back, also when the computation fails. -/
def zoom (view : σ → τ) (put : σ → τ → σ) (m : Attempt ε τ α) :
    Attempt ε σ α := fun s =>
  match m (view s) with
  | .ok a t => .ok a (put s t)
  | .error e t => .error e (put s t)

theorem zoom_eq_ok {m : Attempt ε τ α} :
    zoom view put m s = .ok a u ↔ ∃ t, m (view s) = .ok a t ∧ u = put s t := by
  unfold zoom
  cases hRun : m (view s) with
  | ok b t =>
    constructor
    · intro h
      cases h
      exact ⟨t, rfl, rfl⟩
    · rintro ⟨t', h, rfl⟩
      cases h
      rfl
  | error e t =>
    constructor
    · intro h; cases h
    · rintro ⟨t', h, _⟩; cases h

/-! ## Endings -/

/-- From every state with `P`, a normal end satisfies `Q`, and an exception `e` leaves a state
with `X e`. -/
def Triple (P : σ → Prop) (m : Attempt ε σ α) (Q : α → σ → Prop) (X : ε → σ → Prop) : Prop :=
  ∀ s, P s → match m s with
    | .ok a t => Q a t
    | .error e t => X e t

/-- Any exception leaves a state with `E`. -/
abbrev Ends (P : σ → Prop) (m : Attempt ε σ α) (Q : α → σ → Prop) (E : σ → Prop) : Prop :=
  Triple P m Q fun _ => E

variable {X : ε → σ → Prop}

theorem Triple.ok (hEnds : Triple P m Q X) (hP : P s) (hRun : m s = .ok a t) : Q a t := by
  have h := hEnds s hP
  rw [hRun] at h
  exact h

theorem Triple.returns (hEnds : Triple P m Q fun _ _ => False) (hP : P s) :
    ∃ a t, m s = .ok a t ∧ Q a t := by
  have h := hEnds s hP
  revert h
  cases m s with
  | ok a t => exact fun hQ => ⟨a, t, rfl, hQ⟩
  | error e t => exact False.elim

theorem Ends.fails (hEnds : Ends P m (fun _ _ => False) E) (hP : P s) :
    ∃ e t, m s = .error e t ∧ E t := by
  have h := hEnds s hP
  revert h
  cases m s with
  | ok a t => exact False.elim
  | error e t => exact fun hE => ⟨e, t, rfl, hE⟩

theorem Ends.finalState (hEnds : Ends P m (fun _ => E) E) (hP : P s) : E (finalState m s) := by
  have h := hEnds s hP
  unfold Attempt.finalState
  revert h
  cases m s with
  | ok a t => exact id
  | error e t => exact id

section

variable (hEnds : Triple P m Q X)
include hEnds

/-- The rule of consequence. -/
theorem Triple.imp {X' : ε → σ → Prop} (hP : ∀ s, P' s → P s) (hQ : ∀ a s, Q a s → Q' a s)
    (hX : ∀ e s, X e s → X' e s) : Triple P' m Q' X' := by
  intro s hs
  have h := hEnds s (hP s hs)
  revert h
  cases m s with
  | ok a t => exact hQ a t
  | error e t => exact hX e t

theorem Triple.pre (hP : ∀ s, P' s → P s) : Triple P' m Q X :=
  hEnds.imp hP (fun _ _ h => h) fun _ _ h => h

theorem Triple.post (hQ : ∀ a s, Q a s → Q' a s) : Triple P m Q' X :=
  hEnds.imp (fun _ h => h) hQ fun _ _ h => h

theorem Triple.fromState {start : σ} (hStart : P start) :
    Triple (fun s => s = start) m Q X := by
  intro s hs
  rw [hs]
  exact hEnds start hStart

end

theorem Ends.weaken (hEnds : Ends P m Q E) (hP : ∀ s, P' s → P s) (hQ : ∀ a s, Q a s → Q' a s)
    (hE : ∀ s, E s → E' s) : Ends P' m Q' E' :=
  hEnds.imp hP hQ fun _ => hE

theorem Ends.orElse (hEnds : Ends P m Q E) (hE : ∀ s, E s → E' s) : Ends P m Q E' :=
  hEnds.weaken (fun _ h => h) (fun _ _ h => h) hE

/-- A precondition that does not concern the state is an assumption. -/
theorem ends_of_and {φ : Prop} (h : φ → Triple P m Q X) : Triple (fun s => P s ∧ φ) m Q X :=
  fun s hs => h hs.2 s hs.1

theorem ends_trivial (m : Attempt ε σ α) : Ends P m (fun _ _ => True) (fun _ => True) := by
  intro s _
  cases m s with
  | ok a t => exact trivial
  | error e t => exact trivial

theorem ends_pure (h : ∀ s, P s → Q a s) : Triple P (pure a : Attempt ε σ α) Q X :=
  fun s hs => h s hs

theorem ends_throw {e : ε} (h : ∀ s, P s → E s) : Ends P (throw e : Attempt ε σ α) Q E :=
  fun s hs => h s hs

theorem ends_modify {Q : PUnit → σ → Prop} {f : σ → σ} (h : ∀ s, P s → Q ⟨⟩ (f s)) :
    Triple P (modify f : Attempt ε σ PUnit) Q X :=
  fun s hs => h s hs

section

variable {Q : β → σ → Prop}

/-- Reading the state hands the continuation the state it runs from. -/
theorem ends_get_bind {f : σ → Attempt ε σ β} (h : ∀ s, P s → Triple (fun t => t = s) (f s) Q X) :
    Triple P (get >>= f) Q X := by
  intro s hs
  exact h s hs s rfl

/-- Sequencing: the exceptional postcondition is shared by both parts. -/
theorem Triple.bind {R : α → σ → Prop} (hFirst : Triple P m R X) (hRest : ∀ a, Triple (R a) (f a) Q X) :
    Triple P (m >>= f) Q X := by
  intro s hs
  have h := hFirst s hs
  rw [bind_run]
  revert h
  cases m s with
  | ok a t => exact hRest a t
  | error e t => exact id

theorem Triple.seq (hFirst : Triple P m (fun _ => R) X) (hRest : Triple R n Q X) :
    Triple P (m >>= fun _ => n) Q X :=
  hFirst.bind fun _ => hRest

theorem Triple.bind_value (hFirst : Triple P m (fun b s => b = a ∧ R s) X) (hRest : Triple R (f a) Q X) :
    Triple P (m >>= f) Q X := by
  refine hFirst.bind fun b s hs => ?_
  rw [hs.1]
  exact hRest s hs.2

end

/-- The handler starts where the guarded part failed. -/
theorem Ends.tryCatch {f : ε → Attempt ε σ α} {F : σ → Prop} (hBody : Ends P m Q F)
    (hHandler : ∀ e, Ends F (f e) Q E) : Ends P (tryCatch m f) Q E := by
  intro s hs
  have h := hBody s hs
  rw [tryCatch_run]
  revert h
  cases m s with
  | ok a t => exact id
  | error e t => exact hHandler e t

/-- What holds of the elements handled so far, and of the next one. -/
theorem forall_mem_concat {p : α → Prop} {xs : List α} (hOld : ∀ x ∈ xs, p x) (hNew : p a) :
    ∀ x ∈ xs ++ [a], p x :=
  forall_mem_append.mpr ⟨hOld, forall_mem_singleton.mpr hNew⟩

section

variable (xs : List α)
include xs

/-- **The accumulating loop rule.**  The invariant is indexed by the elements already
handled and the accumulator. -/
theorem ends_foldlM {I : List α → β → σ → Prop} {f : β → α → Attempt ε σ β} (b : β)
    (hStep : ∀ pre x post b, xs = pre ++ x :: post → Triple (I pre b) (f b x) (I (pre ++ [x])) X) :
    Triple (I [] b) (xs.foldlM f b) (I xs) X := by
  induction xs generalizing I b with
  | nil => exact ends_pure fun _ hs => hs
  | cons x xs ih =>
    refine (hStep [] x xs b rfl).bind fun b' => ?_
    -- the rest of the loop sees the elements handled after the first
    refine ih (I := fun pre => I (x :: pre)) b' fun pre y post c hSplit => ?_
    exact hStep (x :: pre) y post c (by rw [hSplit]; rfl)

theorem ends_foldlM_const {f : β → α → Attempt ε σ β} (b : β)
    (hStep : ∀ x ∈ xs, ∀ b, Triple I (f b x) (fun _ => I) X) :
    Triple I (xs.foldlM f b) (fun _ => I) X := by
  refine ends_foldlM (I := fun _ _ => I) xs b ?_
  intro pre x post b' hSplit
  exact hStep x (by rw [hSplit]; simp) b'

theorem forM_eq_foldlM (f : α → Attempt ε σ PUnit) :
    forM xs f = xs.foldlM (fun _ x => f x) ⟨⟩ := by
  induction xs with
  | nil => rfl
  | cons x xs ih =>
    exact congrArg (f x >>= ·) (funext fun _ => ih)

/-- **The loop rule.**  The invariant is indexed by the elements already
handled; each pass extends that list by one. -/
theorem ends_forM {I : List α → σ → Prop} {f : α → Attempt ε σ PUnit}
    (hStep : ∀ pre x post, xs = pre ++ x :: post → Triple (I pre) (f x) (fun _ => I (pre ++ [x])) X) :
    Triple (I []) (forM xs f) (fun _ => I xs) X := by
  rw [forM_eq_foldlM]
  exact ends_foldlM xs ⟨⟩ fun pre x post _ => hStep pre x post

theorem ends_forM_const {f : α → Attempt ε σ PUnit} (hStep : ∀ x ∈ xs, Triple I (f x) (fun _ => I) X) :
    Triple I (forM xs f) (fun _ => I) X := by
  refine ends_forM (I := fun _ => I) xs ?_
  intro pre x post hSplit
  exact hStep x (by rw [hSplit]; simp)

/-- **The collecting loop rule.**  The invariant sees the elements handled and
the values collected for them. -/
theorem ends_mapM {I : List α → List β → σ → Prop}
    (hStep : ∀ pre x post bs, xs = pre ++ x :: post → Triple (I pre bs) (f x) (fun b => I (pre ++ [x]) (bs ++ [b])) X) :
    Triple (I [] []) (xs.mapM f) (I xs) X := by
  induction xs generalizing I with
  | nil => exact ends_pure fun _ hs => hs
  | cons x xs ih =>
    rw [mapM_cons]
    refine (hStep [] x xs [] rfl).bind fun b => ?_
    have hTail := ih fun pre y post bs hSplit =>
      hStep (x :: pre) y post (b :: bs) (by rw [hSplit]; rfl)
    exact hTail.bind fun bs => ends_pure fun _ hs => hs

end

/-! ## Counting loops -/

theorem range_split {n x : Nat} {pre post : List Nat}
    (h : range n = pre ++ x :: post) : x = pre.length ∧ x < n := by
  have hLen := congrArg length h
  simp only [length_range, length_append, length_cons] at hLen
  have hx : (range n)[pre.length]? = some x := by
    rw [h]
    simp
  rw [getElem?_range (by omega)] at hx
  injection hx with hx
  exact ⟨hx.symm, by omega⟩

theorem ends_foldlM_range {I : Nat → β → σ → Prop} {f : β → Nat → Attempt ε σ β} (n : Nat)
    (b : β) (hStep : ∀ k < n, ∀ b, Triple (I k b) (f b k) (I (k + 1)) X) :
    Triple (I 0 b) ((range n).foldlM f b) (I n) X := by
  have h := ends_foldlM (I := fun done => I done.length) (f := f) (X := X) (range n) b ?_
  · simpa using h
  · intro pre x post c hSplit
    obtain ⟨hx, hxn⟩ := range_split hSplit
    have hOne := hStep x hxn c
    rw [hx] at hOne ⊢
    simpa using hOne

/-- A counting loop: pass `k` takes the invariant from `k` to `k + 1`. -/
theorem ends_forM_range {I : Nat → σ → Prop} {f : Nat → Attempt ε σ PUnit} (n : Nat)
    (hStep : ∀ k < n, Triple (I k) (f k) (fun _ => I (k + 1)) X) :
    Triple (I 0) (forM (range n) f) (fun _ => I n) X := by
  rw [forM_eq_foldlM]
  exact ends_foldlM_range n ⟨⟩ fun k hk _ => hStep k hk

/-! ## Frames -/

/-- Whatever happens, `I` stays true. -/
abbrev Keeps (I : σ → Prop) (m : Attempt ε σ α) : Prop := Ends I m (fun _ => I) I

variable {I : σ → Prop}

theorem keeps_pure (a : α) : Keeps I (pure a : Attempt ε σ α) :=
  ends_pure fun _ h => h

theorem keeps_throw (e : ε) : Keeps I (throw e : Attempt ε σ α) :=
  ends_throw fun _ h => h

theorem keeps_get : Keeps I (get : Attempt ε σ σ) := fun _ h => h

theorem keeps_modify {f : σ → σ} (h : ∀ s, I s → I (f s)) :
    Keeps I (modify f : Attempt ε σ PUnit) :=
  ends_modify h

variable {E : σ → Prop} {m : Attempt ε σ α} {c : Bool} {e : ε} {xs : List α}

theorem Keeps.ends (hm : Keeps I m) (hE : ∀ s, I s → E s) : Ends I m (fun _ => I) E :=
  Ends.orElse hm hE

theorem Keeps.bind {f : α → Attempt ε σ β} (hm : Keeps I m) (hf : ∀ a, Keeps I (f a)) :
    Keeps I (m >>= f) :=
  Triple.bind hm hf

theorem Keeps.seq (hm : Keeps I m) (hn : Keeps I n) : Keeps I (m >>= fun _ => n) :=
  Triple.seq hm hn

/-- The continuation may rely on the invariant of the state it is handed. -/
theorem keeps_get_bind {f : σ → Attempt ε σ β} (h : ∀ s, I s → Keeps I (f s)) :
    Keeps I (get >>= f) :=
  fun s hs => h s hs s hs

def throwIf (c : Bool) (e : ε) : Attempt ε σ PUnit :=
  if c then throw e else pure ⟨⟩

/-- A check that passes leaves the state alone. -/
theorem ends_throwIf {P : σ → Prop} (hE : ∀ s, P s → E s) :
    Ends P (throwIf c e : Attempt ε σ PUnit) (fun _ s => P s ∧ c = false) E := by
  cases hc : c with
  | true => exact ends_throw hE
  | false => exact ends_pure fun _ hs => ⟨hs, rfl⟩

/-- What follows a check may rely on its outcome. -/
theorem keeps_throwIf_bind {f : PUnit → Attempt ε σ β} (h : c = false → Keeps I (f ⟨⟩)) :
    Keeps I (throwIf c e >>= f) := by
  cases hc : c with
  | true => exact keeps_throw e
  | false => exact h hc

theorem keeps_throwIf : Keeps I (throwIf c e : Attempt ε σ PUnit) := by
  cases hc : c with
  | true => exact keeps_throw e
  | false => exact keeps_pure PUnit.unit

/-- Fail with the error given, if there is one. -/
def throwSome : Option ε → Attempt ε σ PUnit
  | some e => throw e
  | none => pure ⟨⟩

theorem keeps_throwSome (o : Option ε) : Keeps I (throwSome o) := by
  cases o with
  | some e => exact keeps_throw e
  | none => exact keeps_pure PUnit.unit

/-- A check or translation that does not look at the state. -/
theorem ends_ofExcept {P : σ → Prop} {Q : α → Prop} {x : Except ε α} (hE : ∀ s, P s → E s)
    (hQ : ∀ a, x = .ok a → Q a) : Ends P (ofExcept x : Attempt ε σ α) (fun a s => P s ∧ Q a) E := by
  cases hx : x with
  | error e => exact ends_throw hE
  | ok a => exact ends_pure fun _ hs => ⟨hs, hQ a hx⟩

def runIf (c : Bool) (m : Attempt ε σ PUnit) : Attempt ε σ PUnit :=
  if c then m else pure ⟨⟩

theorem ends_runIf {m : Attempt ε σ PUnit} (h : c → Ends I m (fun _ => I) E) :
    Ends I (runIf c m) (fun _ => I) E := by
  cases hc : c with
  | true => exact h hc
  | false => exact ends_pure fun _ hs => hs

theorem keeps_runIf {m : Attempt ε σ PUnit} (h : c → Keeps I m) : Keeps I (runIf c m) :=
  ends_runIf h

theorem Keeps.ite {c : Prop} [Decidable c] {n : Attempt ε σ α} (hm : Keeps I m)
    (hn : Keeps I n) : Keeps I (if c then m else n) := by
  split_ifs with h
  · exact hm
  · exact hn

theorem Keeps.tryCatch {f : ε → Attempt ε σ α} (hm : Keeps I m) (hf : ∀ e, Keeps I (f e)) :
    Keeps I (MonadExcept.tryCatch m f) :=
  Ends.tryCatch hm hf

theorem keeps_forM {f : α → Attempt ε σ PUnit} (h : ∀ x, Keeps I (f x)) : Keeps I (forM xs f) :=
  ends_forM_const xs fun x _ => h x

theorem keeps_foldlM {f : β → α → Attempt ε σ β} {b : β} (h : ∀ b x, Keeps I (f b x)) :
    Keeps I (xs.foldlM f b) :=
  ends_foldlM_const xs b fun x _ b => h b x

theorem keeps_mapM {f : α → Attempt ε σ β} (h : ∀ x, Keeps I (f x)) : Keeps I (xs.mapM f) :=
  ends_mapM xs fun _ x _ _ _ => h x

/-- A computation on a part of the state keeps what its own frame `J` on that
part guarantees for the whole. -/
theorem keeps_zoom {J : τ → Prop}
    {m : Attempt ε τ α} (hm : Keeps J m) (hView : ∀ s, I s → J (view s))
    (hPut : ∀ s t, I s → J t → I (put s t)) : Keeps I (zoom view put m) := by
  intro s hs
  have h := hm (view s) (hView s hs)
  unfold zoom
  revert h
  cases m (view s) with
  | ok a t => exact hPut s t hs
  | error e t => exact hPut s t hs

end Attempt

end PgTuning.Lib
