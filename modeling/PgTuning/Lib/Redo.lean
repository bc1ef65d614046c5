import Mathlib.Data.List.Induction

/-!
# Replay of a log whose entries carry whole images

An entry either replaces the image, or belongs to something else. An entry's position counts the
entries up to and including it, and a replay starts behind the first `redo` of them.
-/

namespace PgTuning.Lib

open List

variable {α β : Type}

/-- Replay `log`, whose first entry follows position `lsn`. -/
def replay (install : Nat → α → β) (redo : Nat) : Nat → List (Option α) → Option β → Option β
  | _, [], image => image
  | lsn, entry :: log, image =>
    replay install redo (lsn + 1) log <|
      match entry with
      | some a => if redo ≤ lsn then some (install (lsn + 1) a) else image
      | none => image

/-- The newest entry that carries an image, with its position. -/
def newest (log : List (Option α)) : Option (Nat × α) :=
  replay Prod.mk 0 0 log none

theorem replay_append (install : Nat → α → β) (redo : Nat) (log log' : List (Option α)) :
    ∀ (lsn : Nat) (image : Option β),
      replay install redo lsn (log ++ log') image =
        replay install redo (lsn + log.length) log' (replay install redo lsn log image) := by
  induction log with
  | nil => simp [replay]
  | cons entry log ih =>
    intro lsn image
    have hLsn : lsn + 1 + log.length = lsn + (log.length + 1) := by omega
    simp only [cons_append, replay, ih, length_cons, hLsn]

variable (log : List (Option α))

@[simp] theorem newest_append_some (a : α) :
    newest (log ++ [some a]) = some (log.length + 1, a) := by
  rw [newest, replay_append]
  simp [replay]

@[simp] theorem newest_append_none : newest (log ++ [none]) = newest log := by
  rw [newest, replay_append]
  rfl

theorem newest_le_length {lsn : Nat} {a : α}
    (h : newest log = some (lsn, a)) : lsn ≤ log.length := by
  induction log using reverseRecOn with
  | nil => simp [newest, replay] at h
  | append_singleton log entry ih =>
    cases entry with
    | none =>
      have hLe := ih (by simpa using h)
      simp only [length_append]
      omega
    | some b =>
      rw [newest_append_some, Option.some.injEq, Prod.mk.injEq] at h
      simp [← h.1]

/-- The newest entry decides a replay that reaches it, and nothing does otherwise. -/
theorem replay_eq (install : Nat → α → β) (redo : Nat) (log : List (Option α)) (image : Option β) :
    replay install redo 0 log image =
      match newest log with
      | some (lsn, a) => if redo < lsn then some (install lsn a) else image
      | none => image := by
  induction log using reverseRecOn with
  | nil => rfl
  | append_singleton log entry ih =>
    cases entry with
    | none =>
      rw [replay_append, newest_append_none, ← ih]
      rfl
    | some a =>
      rw [replay_append, newest_append_some, Nat.zero_add]
      by_cases hRedo : redo ≤ log.length
      · simp [replay, hRedo, Nat.lt_succ_of_le hRedo]
      · -- the replay starts behind the whole log, the new entry included
        have hStart : ¬redo < log.length + 1 := by omega
        simp only [replay, if_neg hRedo, if_neg hStart, ih]
        cases hNewest : newest log with
        | none => rfl
        | some entry =>
          have hLe := newest_le_length log hNewest
          exact if_neg (by omega)

end PgTuning.Lib
