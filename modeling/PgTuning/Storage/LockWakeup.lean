import PgTuning.Storage.LockCounts

/-!
# Waking the waiters of a lock

A waiter is `Blocked` when its request conflicts with a mode of another process or with the request
of a waiter ahead of it. `ProcLockWakeup` grants the lock to the waiters that are not blocked, in
the order of the queue, and what it leaves in the queue is blocked. Every routine that can unblock a
waiter calls it, unless the wait mask shows that no waiter wants a mode that conflicts with the
released one, for which the conflict table has to be symmetric.
-/

namespace PgTuning.Lmgr

open PgTuning.Lib List

variable {lmt : LockMethod} {lock lock' : Lock} {p q m n : Nat}

/-- A waiter cannot be granted its mode, given the waiters ahead of it. -/
def Blocked (lmt : LockMethod) (lock : Lock) (ahead : List Waiter) (w : Waiter) : Prop :=
  (∃ q n, q ≠ w.proc ∧ Holds lock q n ∧ Conflicts lmt w.waitLockMode n) ∨
    ∃ v ∈ ahead, Conflicts lmt w.waitLockMode v.waitLockMode

/-- The waiters of a list are blocked, with `ahead` in front of them. -/
def AllBlocked (lmt : LockMethod) (lock : Lock) (ahead : List Waiter) : List Waiter → Prop
  | [] => True
  | w :: rest => Blocked lmt lock ahead w ∧ AllBlocked lmt lock (ahead ++ [w]) rest

theorem allBlocked_append (ahead ws ws' : List Waiter) :
    AllBlocked lmt lock ahead (ws ++ ws') ↔
      AllBlocked lmt lock ahead ws ∧ AllBlocked lmt lock (ahead ++ ws) ws' := by
  induction ws generalizing ahead with
  | nil => simp [AllBlocked]
  | cons w ws ih =>
    simp only [cons_append, AllBlocked, ih, and_assoc, append_assoc, nil_append]

/-- Waiters stay blocked when the conflicting holders stay and nobody leaves the queue
in front of them. -/
theorem AllBlocked.imp {ahead ahead' ws : List Waiter} (h : AllBlocked lmt lock ahead ws)
    (hAhead : ahead ⊆ ahead')
    (hHolds : ∀ w ∈ ws, ∀ q n, q ≠ w.proc → Holds lock q n → Conflicts lmt w.waitLockMode n →
      Holds lock' q n) : AllBlocked lmt lock' ahead' ws := by
  induction ws generalizing ahead ahead' with
  | nil => trivial
  | cons w ws ih =>
    refine ⟨?_, ih h.2 ?_ fun v hv => hHolds v (mem_cons_of_mem w hv)⟩
    · rcases h.1 with ⟨q, n, hq, hHeld, hConf⟩ | ⟨v, hv, hConf⟩
      · exact Or.inl ⟨q, n, hq, hHolds w mem_cons_self q n hq hHeld hConf, hConf⟩
      · exact Or.inr ⟨v, hAhead hv, hConf⟩
    · exact append_subset.mpr ⟨fun v hv => mem_append_left _ (hAhead hv), subset_append_right _ _⟩

theorem AllBlocked.mono {ahead ws : List Waiter} (h : AllBlocked lmt lock ahead ws)
    (hHolds : ∀ q n, Holds lock q n → Holds lock' q n) : AllBlocked lmt lock' ahead ws :=
  h.imp (List.Subset.refl _) fun _ _ q n _ hHeld _ => hHolds q n hHeld

theorem blocked_of_conflict (h : Wellformed lmt lock) {ahead : List Waiter} {mask : LockMask}
    (hMask : ∀ i, mask.getLsbD i → ∃ v ∈ ahead, v.waitLockMode = i) {held : LockMask}
    (hFound : ¬ (!meets (lmt.conflictTab m) mask && lockCheckConflicts lmt m lock p)) :
    Blocked lmt lock ahead ⟨p, m, held⟩ := by
  rw [Bool.and_eq_true, Bool.not_eq_true', not_and_or, Bool.not_eq_false,
    lockCheckConflicts_iff h, meets_iff] at hFound
  rcases hFound with ⟨i, hConf, hBit⟩ | hHeld
  · obtain ⟨v, hv, rfl⟩ := hMask i hBit
    exact Or.inr ⟨v, hv, hConf⟩
  · push Not at hHeld
    obtain ⟨q, n, hq, hHolds, hConf⟩ := hHeld
    exact Or.inl ⟨q, n, hq, hHolds, hConf⟩

/-- A lock between two critical sections, with no waiter that could be granted. -/
structure Safe (lmt : LockMethod) (lock : Lock) : Prop extends Consistent lmt lock where
  blocked : AllBlocked lmt lock [] lock.waitProcs

theorem safe_empty (lmt : LockMethod) : Safe lmt Lock.empty where
  unique := nodup_nil
  granted_eq := fun _ => rfl
  grantMask_iff := fun m => by simp [Lock.empty, holders]
  held_modes := fun p m h => by simp [Holds, Lock.holdMask, Lock.empty] at h
  compatible := fun p q m n _ h => by simp [Holds, Lock.holdMask, Lock.empty] at h
  queue_nodup := nodup_nil
  queued := fun w hw => by simp [Lock.empty] at hw
  requested_eq := fun _ => rfl
  nRequested_eq := by simp [Lock.empty]
  waitMask_iff := fun m => by simp [Lock.empty, waiters]
  blocked := trivial

/-! ## What waking does to the others -/

/-- The processes in `woken` have been granted what they waited for, and nothing else
has changed. -/
structure Woke (lock lock' : Lock) (woken : List Nat) : Prop where
  holds_iff : ∀ q i, Holds lock' q i ↔ Holds lock q i ∨ (q ∈ woken ∧ Waits lock q i)
  waits_iff : ∀ q i, Waits lock' q i ↔ Waits lock q i ∧ q ∉ woken
  woken_waits : ∀ q ∈ woken, ∃ i, Waits lock q i

theorem Woke.none (hHolds : ∀ q i, Holds lock' q i ↔ Holds lock q i)
    (hWaits : ∀ q i, Waits lock' q i ↔ Waits lock q i) : Woke lock lock' [] where
  holds_iff := fun q i => by rw [hHolds]; simp
  waits_iff := fun q i => by rw [hWaits]; simp
  woken_waits := fun q hq => by cases hq

theorem Wellformed.waits_unique (h : Wellformed lmt lock) {i j : Nat} (hi : Waits lock p i)
    (hj : Waits lock p j) : i = j := by
  obtain ⟨v, hv, hvp, rfl⟩ := hi
  obtain ⟨w, hw, hwp, rfl⟩ := hj
  have hEq := inj_on_of_nodup_map h.queue_nodup hv hw (hvp.trans hwp.symm)
  rw [hEq]

theorem waits_dequeue (lock : Lock) (p q i : Nat) :
    Waits (lock.dequeue p) q i ↔ Waits lock q i ∧ q ≠ p := by
  unfold Waits Lock.dequeue
  simp only [mem_filter, decide_eq_true_eq]
  constructor
  · rintro ⟨w, ⟨hw, hne⟩, rfl, hi⟩
    exact ⟨⟨w, hw, rfl, hi⟩, hne⟩
  · rintro ⟨⟨w, hw, rfl, hi⟩, hne⟩
    exact ⟨w, ⟨hw, hne⟩, rfl, hi⟩

theorem Consistent.grantWaiter (h : Consistent lmt lock) {w : Waiter} (hw : w ∈ lock.waitProcs)
    (hFree : lockCheckConflicts lmt w.waitLockMode lock w.proc) :
    Consistent lmt ((grantLock lock w.proc w.waitLockMode).dequeue w.proc) ∧
      Woke lock ((grantLock lock w.proc w.waitLockMode).dequeue w.proc) [w.proc] := by
  have hAsked := h.dequeue hw
  have hSwap : (grantLock lock w.proc w.waitLockMode).dequeue w.proc =
      grantLock (lock.dequeue w.proc) w.proc w.waitLockMode := rfl
  rw [hSwap]
  refine ⟨hAsked.grantLock ((lockCheckConflicts_iff h.toWellformed _ _).mp hFree), ?_, ?_, ?_⟩
  · intro q i
    have hSame : Holds (lock.dequeue w.proc) q i ↔ Holds lock q i := Iff.rfl
    rw [holds_grantLock hAsked.entered hAsked.mode.lt, mem_singleton]
    refine or_congr_right ⟨?_, ?_⟩
    · rintro ⟨rfl, rfl⟩
      exact ⟨rfl, w, hw, rfl, rfl⟩
    · rintro ⟨rfl, hWaits⟩
      exact ⟨rfl, h.waits_unique hWaits ⟨w, hw, rfl, rfl⟩⟩
  · intro q i
    have hSame : Waits (grantLock (lock.dequeue w.proc) w.proc w.waitLockMode) q i ↔
        Waits (lock.dequeue w.proc) q i := Iff.rfl
    rw [hSame, waits_dequeue, mem_singleton]
  · intro q hq
    rw [mem_singleton] at hq
    exact ⟨w.waitLockMode, w, hw, hq.symm, rfl⟩

theorem Woke.cons {lock₁ : Lock} {ws : List Nat} (h₁ : Woke lock lock₁ [p])
    (h₂ : Woke lock₁ lock' ws) : Woke lock lock' (p :: ws) where
  holds_iff := by
    intro q i
    rw [h₂.holds_iff, h₁.holds_iff, h₁.waits_iff]
    by_cases hq : q = p
    · simp [hq]
    · simp [hq]
  waits_iff := by
    intro q i
    rw [h₂.waits_iff, h₁.waits_iff, mem_singleton, mem_cons, not_or, and_assoc]
  woken_waits := by
    intro q hq
    rcases mem_cons.mp hq with rfl | hTail
    · exact h₁.woken_waits q (mem_singleton.mpr rfl)
    · obtain ⟨i, hi⟩ := h₂.woken_waits q hTail
      exact ⟨i, ((h₁.waits_iff q i).mp hi).1⟩

/-! ## `ProcLockWakeup` -/

theorem filter_proc_middle {kept rest : List Waiter} {w : Waiter}
    (h : ((kept ++ w :: rest).map Waiter.proc).Nodup) :
    ((kept ++ w :: rest).filter fun v => v.proc ≠ w.proc) = kept ++ rest := by
  have hOther : ∀ v ∈ kept ++ rest, v.proc ≠ w.proc := by
    rw [map_append, map_cons, (perm_middle).nodup_iff, nodup_cons, ← map_append] at h
    intro v hv hEq
    exact h.1 (hEq ▸ mem_map_of_mem hv)
  rw [filter_append, filter_cons_of_neg (by simp), ← filter_append, filter_eq_self]
  intro v hv
  exact decide_eq_true (hOther v hv)

/-- The loop of `ProcLockWakeup`. The waiters it has passed are blocked, and
`aheadRequests` has exactly their modes; the induction is on those not yet seen. -/
theorem procLockWakeupLoop_spec (rest : List Waiter) :
    ∀ (lock : Lock) (aheadRequests : LockMask) (woken : List Nat) (kept : List Waiter),
      Consistent lmt lock → lock.waitProcs = kept ++ rest → AllBlocked lmt lock [] kept →
      (∀ i, aheadRequests.getLsbD i ↔ ∃ v ∈ kept, v.waitLockMode = i) →
      ∃ ws, (procLockWakeupLoop lmt lock aheadRequests woken rest).2 = woken ++ ws ∧
        Safe lmt (procLockWakeupLoop lmt lock aheadRequests woken rest).1 ∧
        Woke lock (procLockWakeupLoop lmt lock aheadRequests woken rest).1 ws := by
  induction rest with
  | nil =>
    intro lock aheadRequests woken kept h hQueue hKept _
    rw [append_nil] at hQueue
    refine ⟨[], (append_nil woken).symm, { h with blocked := hQueue ▸ hKept }, ?_⟩
    exact Woke.none (fun _ _ => Iff.rfl) fun _ _ => Iff.rfl
  | cons w rest ih =>
    intro lock aheadRequests woken kept h hQueue hKept hAhead
    have hw : w ∈ lock.waitProcs := by
      rw [hQueue]
      exact mem_append_right _ mem_cons_self
    have hMode := (h.queued w hw).2.1
    rw [procLockWakeupLoop]
    split_ifs with hGrant
    · rw [Bool.and_eq_true] at hGrant
      obtain ⟨hCons, hWoke⟩ := h.grantWaiter hw hGrant.2
      have hRest : ((grantLock lock w.proc w.waitLockMode).dequeue w.proc).waitProcs =
          kept ++ rest := by
        have hDef : ((grantLock lock w.proc w.waitLockMode).dequeue w.proc).waitProcs =
            lock.waitProcs.filter fun v => v.proc ≠ w.proc := rfl
        have hNodup := h.queue_nodup
        rw [hQueue] at hNodup
        rw [hDef, hQueue, filter_proc_middle hNodup]
      -- a grant only adds holders, so the waiters passed stay blocked
      have hStill : AllBlocked lmt
          ((grantLock lock w.proc w.waitLockMode).dequeue w.proc) [] kept :=
        hKept.mono fun q n hHeld => (hWoke.holds_iff q n).mpr (Or.inl hHeld)
      obtain ⟨ws, hList, hSafe, hTail⟩ :=
        ih _ aheadRequests (woken ++ [w.proc]) kept hCons hRest hStill hAhead
      refine ⟨w.proc :: ws, ?_, hSafe, hWoke.cons hTail⟩
      rw [hList, append_assoc]
      rfl
    · have hBlocked : Blocked lmt lock kept w :=
        blocked_of_conflict h.toWellformed (fun i => (hAhead i).mp) hGrant
      refine ih lock _ woken (kept ++ [w]) h ?_ ?_ ?_
      · rw [hQueue, append_assoc]
        rfl
      · rw [allBlocked_append]
        exact ⟨hKept, hBlocked, trivial⟩
      · intro i
        rw [getLsbD_or_lockbitOn _ hMode.lt, Bool.or_eq_true, hAhead, decide_eq_true_eq]
        simp only [mem_append, mem_singleton, or_and_right, exists_or, exists_eq_left]

variable (h : Consistent lmt lock)
include h

theorem procLockWakeup_spec :
    Safe lmt (procLockWakeup lmt lock).1 ∧
      Woke lock (procLockWakeup lmt lock).1 (procLockWakeup lmt lock).2 := by
  obtain ⟨ws, hList, hSafe, hWoke⟩ :=
    procLockWakeupLoop_spec lock.waitProcs lock 0 [] [] h rfl trivial (by simp)
  rw [procLockWakeup, hList]
  exact ⟨hSafe, hWoke⟩

/-! ## `CleanUpLock` -/

theorem Consistent.removeProc (hNone : lock.holdMask p = 0)
    (hWait : ∀ w ∈ lock.waitProcs, w.proc ≠ p) : Consistent lmt (lock.removeProc p) :=
  { h.toWellformed.removeProc hNone hWait, h with }

section

variable (hZero : lock.nRequested = 0)
include hZero

theorem Consistent.unrequested (hMode : IsMode lmt m) :
    holders lock m = 0 ∧ waiters lock m = 0 := by
  have hSum := h.nRequested_eq
  rw [hZero, eq_comm, Finset.sum_eq_zero_iff] at hSum
  have hNone := hSum m (Finset.mem_range.mpr hMode.lt_max)
  rw [h.requested_eq, h.granted_eq] at hNone
  omega

theorem Consistent.not_holds_of_unrequested (q i : Nat) : ¬ Holds lock q i := by
  intro hHolds
  have hNone := h.unrequested hZero (h.held_modes q i hHolds)
  have hPos := (holders_pos_iff h.unique i).mpr ⟨q, hHolds⟩
  omega

theorem Consistent.not_waits_of_unrequested (q i : Nat) : ¬ Waits lock q i := by
  rintro ⟨w, hw, -, rfl⟩
  have hNone := h.unrequested hZero (h.queued w hw).2.1
  have hPos := (waiters_pos_iff lock w.waitLockMode).mpr ⟨w.proc, w, hw, rfl, rfl⟩
  omega

end

/-- `CleanUpLock` may skip the wakeup only when no waiter could be granted. -/
theorem cleanUpLock_spec (hWait : ∀ w ∈ lock.waitProcs, w.proc ≠ p) {wakeupNeeded : Bool}
    (hBlocked : wakeupNeeded = false → AllBlocked lmt lock [] lock.waitProcs) :
    Safe lmt (cleanUpLock lmt lock p wakeupNeeded).1 ∧
      Woke lock (cleanUpLock lmt lock p wakeupNeeded).1
        (cleanUpLock lmt lock p wakeupNeeded).2 := by
  -- deleting an empty `PROCLOCK` changes neither the holders nor the queue
  have hDeleted : ∃ lock₁, lock₁ =
        (if lock.holdMask p = 0 then lock.removeProc p else lock) ∧ Consistent lmt lock₁ ∧
      lock₁.waitProcs = lock.waitProcs ∧ (∀ q i, Holds lock₁ q i ↔ Holds lock q i) := by
    refine ⟨_, rfl, ?_⟩
    split_ifs with hNone
    · refine ⟨h.removeProc hNone hWait, rfl, fun q i => ?_⟩
      rw [Holds, holdMask_removeProc hNone, Holds]
    · exact ⟨h, rfl, fun _ _ => Iff.rfl⟩
  obtain ⟨lock₁, hEq, hCons, hQueue, hHolds⟩ := hDeleted
  have hWaits : ∀ q i, Waits lock₁ q i ↔ Waits lock q i := by
    intro q i
    rw [Waits, hQueue, Waits]
  have hSame : ∀ {lock' : Lock} {ws : List Nat}, Woke lock₁ lock' ws → Woke lock lock' ws := by
    intro lock' ws hWoke
    refine ⟨fun q i => ?_, fun q i => ?_, fun q hq => ?_⟩
    · rw [hWoke.holds_iff, hHolds, hWaits]
    · rw [hWoke.waits_iff, hWaits]
    · obtain ⟨i, hi⟩ := hWoke.woken_waits q hq
      exact ⟨i, (hWaits q i).mp hi⟩
  rw [cleanUpLock, ← hEq]
  split_ifs with hZero hNeeded
  · refine ⟨safe_empty lmt, hSame (Woke.none ?_ ?_)⟩
    · intro q i
      refine iff_of_false ?_ (hCons.not_holds_of_unrequested hZero q i)
      exact (safe_empty lmt).not_holds_of_unrequested rfl q i
    · intro q i
      refine iff_of_false ?_ (hCons.not_waits_of_unrequested hZero q i)
      exact (safe_empty lmt).not_waits_of_unrequested rfl q i
  · obtain ⟨hSafe, hWoke⟩ := procLockWakeup_spec hCons
    exact ⟨hSafe, hSame hWoke⟩
  · rw [Bool.not_eq_true] at hNeeded
    refine ⟨{ hCons with blocked := ?_ }, hSame (Woke.none (fun _ _ => Iff.rfl) fun _ _ => Iff.rfl)⟩
    rw [hQueue]
    exact (hBlocked hNeeded).mono fun q n => (hHolds q n).mpr

end PgTuning.Lmgr
