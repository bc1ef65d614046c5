import PgTuning.Storage.LockWakeup

/-!
# The critical sections of the lock manager

What `LockAcquire`, `LockRelease`, `LockReleaseAll` and `RemoveFromWaitQueue` do to one
lock object: they keep it `Safe`, they change what the calling process holds and waits
for in the way their names say, and of the other processes they touch only those they
wake (`Effect`).
-/

namespace PgTuning.Lmgr

open PgTuning.Lib List

variable {lmt : LockMethod} {lock lock' : Lock} {p q m n : Nat} {lock₁ : Lock} {ws : List Nat}

/-- What an operation of `p` does to the other processes: those in `woken` now hold
what they waited for. -/
structure Effect (p : Nat) (lock lock' : Lock) (woken : List Nat) : Prop where
  holds_iff : ∀ q i, q ≠ p → (Holds lock' q i ↔ Holds lock q i ∨ (q ∈ woken ∧ Waits lock q i))
  waits_iff : ∀ q i, q ≠ p → (Waits lock' q i ↔ Waits lock q i ∧ q ∉ woken)
  woken_waits : ∀ q ∈ woken, q ≠ p ∧ ∃ i, Waits lock q i

theorem Effect.silent (hHolds : ∀ q i, q ≠ p → (Holds lock' q i ↔ Holds lock q i))
    (hWaits : ∀ q i, q ≠ p → (Waits lock' q i ↔ Waits lock q i)) : Effect p lock lock' [] where
  holds_iff := fun q i hq => by rw [hHolds q i hq]; simp
  waits_iff := fun q i hq => by rw [hWaits q i hq]; simp
  woken_waits := fun q hq => by cases hq

/-- It is the same from a lock that differs in what `p` alone holds and waits for. -/
theorem Effect.start (h : Effect p lock₁ lock' ws)
    (hHolds : ∀ q i, q ≠ p → (Holds lock₁ q i ↔ Holds lock q i))
    (hWaits : ∀ q i, q ≠ p → (Waits lock₁ q i ↔ Waits lock q i)) : Effect p lock lock' ws where
  holds_iff := fun q i hq => by rw [h.holds_iff q i hq, hHolds q i hq, hWaits q i hq]
  waits_iff := fun q i hq => by rw [h.waits_iff q i hq, hWaits q i hq]
  woken_waits := fun q hq => by
    obtain ⟨hne, i, hi⟩ := h.woken_waits q hq
    exact ⟨hne, i, (hWaits q i hne).mp hi⟩

/-- What a critical section of `p` leaves, with the processes it wakes: `p` holds the modes
`hold` and does not wait. -/
structure Leaves (lmt : LockMethod) (p : Nat) (lock : Lock) (hold : Nat → Prop)
    (r : Lock × List Nat) : Prop where
  safe : Safe lmt r.1
  effect : Effect p lock r.1 r.2
  holds_iff : ∀ i, Holds r.1 p i ↔ hold i
  not_waits : ∀ i, ¬ Waits r.1 p i

/-- A change of what `p` alone holds and waits for, followed by a wakeup in which `p`
itself does not wait. -/
theorem Effect.wake (hHolds : ∀ q i, q ≠ p → (Holds lock₁ q i ↔ Holds lock q i))
    (hWaits : ∀ q i, q ≠ p → (Waits lock₁ q i ↔ Waits lock q i))
    (hOwn : ∀ i, ¬ Waits lock₁ p i) (hSafe : Safe lmt lock') (hWoke : Woke lock₁ lock' ws) :
    Leaves lmt p lock (Holds lock₁ p) (lock', ws) := by
  have hEffect : Effect p lock₁ lock' ws := by
    refine ⟨fun q i _ => hWoke.holds_iff q i, fun q i _ => hWoke.waits_iff q i, ?_⟩
    intro q hq
    obtain ⟨i, hi⟩ := hWoke.woken_waits q hq
    exact ⟨fun hEq => hOwn i (hEq ▸ hi), i, hi⟩
  refine ⟨hSafe, hEffect.start hHolds hWaits, ?_, ?_⟩
  · intro i
    rw [hWoke.holds_iff, or_iff_left fun h => hOwn i h.2]
  · intro i hi
    exact hOwn i ((hWoke.waits_iff p i).mp hi).1

theorem not_waits_iff : (∀ i, ¬ Waits lock p i) ↔ ∀ w ∈ lock.waitProcs, w.proc ≠ p := by
  constructor
  · intro h w hw hEq
    exact h w.waitLockMode ⟨w, hw, hEq, rfl⟩
  · rintro h i ⟨w, hw, hEq, -⟩
    exact h w hw hEq

/-! ## `RemoveFromWaitQueue` -/

theorem holds_giveUp (lock : Lock) (m q i : Nat) : Holds (giveUp lock m) q i ↔ Holds lock q i := by
  unfold giveUp
  dsimp only
  split_ifs <;> exact Iff.rfl

theorem waits_giveUp (lock : Lock) (m q i : Nat) : Waits (giveUp lock m) q i ↔ Waits lock q i := by
  unfold giveUp
  dsimp only
  split_ifs <;> exact Iff.rfl

theorem removeFromWaitQueue_spec (h : Consistent lmt lock) (hWaits : Waits lock p m) :
    Leaves lmt p lock (Holds lock p) (removeFromWaitQueue lmt lock p m) := by
  obtain ⟨w, hw, rfl, rfl⟩ := hWaits
  have hDef : removeFromWaitQueue lmt lock w.proc w.waitLockMode =
      cleanUpLock lmt (giveUp (lock.dequeue w.proc) w.waitLockMode) w.proc true := rfl
  have hCons : Consistent lmt (giveUp (lock.dequeue w.proc) w.waitLockMode) := (h.dequeue hw).giveUp
  have hQueue : ∀ q i, Waits (giveUp (lock.dequeue w.proc) w.waitLockMode) q i ↔
      Waits lock q i ∧ q ≠ w.proc := by
    intro q i
    rw [waits_giveUp, waits_dequeue]
  have hGone : ∀ i, ¬ Waits (giveUp (lock.dequeue w.proc) w.waitLockMode) w.proc i := by
    intro i hi
    exact ((hQueue w.proc i).mp hi).2 rfl
  obtain ⟨hSafe, hWoke⟩ := cleanUpLock_spec hCons (not_waits_iff.mp hGone)
    (fun hFalse : true = false => by cases hFalse)
  have hHolds : ∀ q i, Holds (giveUp (lock.dequeue w.proc) w.waitLockMode) q i ↔
      Holds lock q i := fun q i => holds_giveUp _ _ q i
  have hLeft := Effect.wake (fun q i _ => hHolds q i)
    (fun q i hq => (hQueue q i).trans (and_iff_left hq)) hGone hSafe hWoke
  exact { hLeft with holds_iff := fun i => (hLeft.holds_iff i).trans (hHolds w.proc i) }

/-! ## `ProcSleep` -/

/-- What `ProcSleep` may rely on at the place it chooses. -/
def PlaceOk (lmt : LockMethod) (lock : Lock) (p m : Nat) : SleepPlace → Prop
  | .grant => lockCheckConflicts lmt m lock p = true
  | .before place =>
    Blocked lmt lock (lock.waitProcs.take place) ⟨p, m, lock.holdMask p⟩
  | .earlyDeadlock _ => True

section

variable (h : Wellformed lmt lock) (hTail : Blocked lmt lock lock.waitProcs ⟨p, m, lock.holdMask p⟩)
include h hTail

/-- The scan of the queue: `passed` are the waiters in front of the place. -/
theorem procSleepScan_ok (held : LockMask)
    (rest : List Waiter) :
    ∀ (passed : List Waiter) (ahead : LockMask), lock.waitProcs = passed ++ rest →
      (∀ i, ahead.getLsbD i → ∃ v ∈ passed, v.waitLockMode = i) →
      PlaceOk lmt lock p m (procSleepScan lmt lock p m held ahead passed.length rest) := by
  induction rest with
  | nil =>
    intro passed ahead hQueue _
    rw [append_nil] at hQueue
    rw [procSleepScan, PlaceOk, ← hQueue, take_length]
    exact hTail
  | cons w rest ih =>
    intro passed ahead hQueue hAhead
    have hMode := (h.queued w (by rw [hQueue]; simp)).2.1
    have hTake : lock.waitProcs.take passed.length = passed := by
      rw [hQueue, take_left]
    rw [procSleepScan]
    split_ifs with hMust hDead hGrant
    · trivial
    · rw [Bool.and_eq_true] at hGrant
      exact hGrant.2
    · rw [PlaceOk, hTake]
      exact blocked_of_conflict h hAhead hGrant
    · have hLen : passed.length + 1 = (passed ++ [w]).length := by simp
      rw [hLen]
      refine ih (passed ++ [w]) _ ?_ ?_
      · rw [hQueue, append_assoc]
        rfl
      · intro i hBit
        rw [getLsbD_or_lockbitOn _ hMode.lt, Bool.or_eq_true, decide_eq_true_eq] at hBit
        rcases hBit with hOld | hEq
        · obtain ⟨v, hv, hi⟩ := hAhead i hOld
          exact ⟨v, mem_append_left _ hv, hi⟩
        · exact ⟨w, mem_append_right _ (mem_singleton.mpr rfl), hEq⟩

theorem procSleepPlace_ok :
    PlaceOk lmt lock p m (procSleepPlace lmt lock p m) := by
  rw [procSleepPlace]
  split_ifs with hHeld
  · exact procSleepScan_ok h hTail _ lock.waitProcs [] 0 rfl (by simp)
  · rw [PlaceOk, take_length]
    exact hTail

end

/-- How a call of `LockAcquire` leaves what the process holds and waits for. -/
def AcquirePost (lock lock' : Lock) (p m : Nat) : AcquireResult → Prop
  | .ok => (∀ i, Holds lock' p i ↔ Holds lock p i ∨ i = m) ∧ ∀ i, ¬ Waits lock' p i
  | .sleeping => (∀ i, Holds lock' p i ↔ Holds lock p i) ∧ ∀ i, Waits lock' p i ↔ i = m
  | .notAvail => (∀ i, Holds lock' p i ↔ Holds lock p i) ∧ ∀ i, ¬ Waits lock' p i
  | .deadlock => (∀ i, Holds lock' p i ↔ Holds lock p i) ∧ ∀ i, ¬ Waits lock' p i
  | .alreadyHeld => False

/-- What a request of `p` for `m` leaves, with its result and the processes it wakes. -/
structure Acquires (lmt : LockMethod) (p m : Nat) (lock : Lock)
    (r : Lock × AcquireResult × List Nat) : Prop where
  safe : Safe lmt r.1
  effect : Effect p lock r.1 r.2.2
  post : AcquirePost lock r.1 p m r.2.1

theorem Asked.grant_spec (h : Asked lmt p m lock) (hBlocked : AllBlocked lmt lock [] lock.waitProcs)
    (hFree : lockCheckConflicts lmt m lock p) :
    Acquires lmt p m lock (Lmgr.grantLock lock p m, .ok, []) := by
  have hHolds := holds_grantLock h.entered h.mode.lt
  have hCons := h.grantLock ((lockCheckConflicts_iff h.toWellformed p m).mp hFree)
  refine ⟨{ hCons with blocked := ?_ }, Effect.silent ?_ fun _ _ _ => Iff.rfl, ?_, ?_⟩
  · exact hBlocked.mono fun q n hHeld => (hHolds q n).mpr (Or.inl hHeld)
  · intro q i hq
    rw [hHolds q i]
    simp [hq]
  · intro i
    rw [hHolds p i]
    simp
  · exact not_waits_iff.mpr h.not_waiting

theorem waits_joinQueue (lock : Lock) (p m place q i : Nat) :
    Waits (joinQueue lock p m place) q i ↔ Waits lock q i ∨ (q = p ∧ i = m) := by
  unfold Waits
  simp only [mem_joinQueue]
  constructor
  · rintro ⟨w, rfl | hw, hq, hi⟩
    · exact Or.inr ⟨hq.symm, hi.symm⟩
    · exact Or.inl ⟨w, hw, hq, hi⟩
  · rintro (⟨w, hw, hq, hi⟩ | ⟨rfl, rfl⟩)
    · exact ⟨w, Or.inr hw, hq, hi⟩
    · exact ⟨_, Or.inl rfl, rfl, rfl⟩

theorem Asked.waits_joinQueue_self (h : Asked lmt p m lock) (place i : Nat) :
    Waits (Lmgr.joinQueue lock p m place) p i ↔ i = m := by
  rw [waits_joinQueue, or_iff_right (not_waits_iff.mpr h.not_waiting i)]
  simp

theorem waits_joinQueue_ne (lock : Lock) (m place i : Nat) (hq : q ≠ p) :
    Waits (joinQueue lock p m place) q i ↔ Waits lock q i := by
  rw [waits_joinQueue]
  simp [hq]

theorem procSleep_spec (h : Asked lmt p m lock) (hBlocked : AllBlocked lmt lock [] lock.waitProcs)
    (hTail : Blocked lmt lock lock.waitProcs ⟨p, m, lock.holdMask p⟩) :
    Acquires lmt p m lock (procSleep lmt lock p m) := by
  have hPlace := procSleepPlace_ok h.toWellformed hTail
  rw [procSleep]
  cases hAt : procSleepPlace lmt lock p m with
  | grant =>
    rw [hAt] at hPlace
    exact h.grant_spec hBlocked hPlace
  | before place =>
    rw [hAt] at hPlace
    refine ⟨{ h.joinQueue place with blocked := ?_ },
      Effect.silent (fun _ _ _ => Iff.rfl) fun q i hq => waits_joinQueue_ne lock m place i hq,
      fun _ => Iff.rfl, h.waits_joinQueue_self place⟩
    -- those in front are as before, and those behind have one more waiter ahead
    have hOld : AllBlocked lmt lock []
        (lock.waitProcs.take place ++ lock.waitProcs.drop place) := by
      rw [take_append_drop]
      exact hBlocked
    rw [allBlocked_append] at hOld
    have hQueue : (joinQueue lock p m place).waitProcs = lock.waitProcs.take place ++
        ⟨p, m, lock.holdMask p⟩ :: lock.waitProcs.drop place := rfl
    rw [hQueue, allBlocked_append]
    exact ⟨hOld.1.mono fun _ _ hHeld => hHeld, hPlace,
      hOld.2.imp (subset_append_left _ _) fun w _ q n _ hHeld _ => hHeld⟩
  | earlyDeadlock place =>
    have hWaits : Waits (joinQueue lock p m place) p m := (h.waits_joinQueue_self place m).mpr rfl
    obtain ⟨hSafe, hEffect, hOwn, hNot⟩ := removeFromWaitQueue_spec (h.joinQueue place) hWaits
    exact ⟨hSafe, hEffect.start (fun _ _ _ => Iff.rfl)
      fun q i hq => waits_joinQueue_ne lock m place i hq, hOwn, hNot⟩

/-! ## `LockAcquire` -/

theorem Consistent.enterProc (h : Consistent lmt lock) (p : Nat) :
    Consistent lmt (lock.enterProc p) := by
  have hFields : (lock.enterProc p).requested = lock.requested ∧
      (lock.enterProc p).nRequested = lock.nRequested ∧
      (lock.enterProc p).granted = lock.granted ∧
      (lock.enterProc p).waitMask = lock.waitMask ∧
      (lock.enterProc p).waitProcs = lock.waitProcs := by
    unfold Lock.enterProc
    split_ifs <;> exact ⟨rfl, rfl, rfl, rfl, rfl⟩
  have hWaiters : ∀ i, waiters (lock.enterProc p) i = waiters lock i := by
    intro i
    rw [waiters, hFields.2.2.2.2, waiters]
  refine { h.toWellformed.enterProc p with
    requested_eq := fun i => ?_
    nRequested_eq := ?_
    waitMask_iff := fun i => ?_ }
  · rw [hFields.1, hFields.2.2.1, hWaiters, h.requested_eq]
  · rw [hFields.1, hFields.2.1, h.nRequested_eq]
  · rw [hFields.2.2.2.1, hWaiters, h.waitMask_iff]

theorem waitProcs_enterProc (lock : Lock) (p : Nat) :
    (lock.enterProc p).waitProcs = lock.waitProcs := by
  unfold Lock.enterProc
  split_ifs <;> rfl

/-- The `PROCLOCK` a request needs is there, and nothing else has changed. -/
theorem Safe.enterProc (h : Safe lmt lock) (p : Nat) :
    Safe lmt (lock.enterProc p) ∧ (∀ q i, Holds (lock.enterProc p) q i ↔ Holds lock q i) ∧
      ∀ q i, Waits (lock.enterProc p) q i ↔ Waits lock q i := by
  have hHolds : ∀ q i, Holds (lock.enterProc p) q i ↔ Holds lock q i := by
    intro q i
    rw [Holds, holdMask_enterProc, Holds]
  refine ⟨{ h.toConsistent.enterProc p with blocked := ?_ }, hHolds, fun q i => ?_⟩
  · rw [waitProcs_enterProc]
    exact h.blocked.mono fun q n => (hHolds q n).mpr
  · rw [Waits, waitProcs_enterProc, Waits]

/-- A conditional request that fails: the counts go back, and a `PROCLOCK` that was
made for it is deleted. -/
theorem Safe.notAvail (h : Safe lmt lock) (hWait : ∀ w ∈ lock.waitProcs, w.proc ≠ p) (m : Nat) :
    Safe lmt ((if (lock.request m).holdMask p = 0 then (lock.request m).removeProc p
        else lock.request m).unrequest m) ∧
      ∀ q i, Holds ((if (lock.request m).holdMask p = 0 then (lock.request m).removeProc p
        else lock.request m).unrequest m) q i ↔ Holds lock q i := by
  have hSame : (lock.request m).holdMask p = lock.holdMask p := rfl
  rw [hSame]
  split_ifs with hNone
  · have hSwap : ((lock.request m).removeProc p).unrequest m = lock.removeProc p := by
      have hBack := Lock.unrequest_request lock m
      calc ((lock.request m).removeProc p).unrequest m
          = ((lock.request m).unrequest m).removeProc p := rfl
        _ = lock.removeProc p := by rw [hBack]
    have hHolds : ∀ q i, Holds (lock.removeProc p) q i ↔ Holds lock q i := by
      intro q i
      rw [Holds, holdMask_removeProc hNone, Holds]
    rw [hSwap]
    refine ⟨{ h.toConsistent.removeProc hNone hWait with blocked := ?_ }, hHolds⟩
    exact h.blocked.mono fun q n => (hHolds q n).mpr
  · rw [Lock.unrequest_request]
    exact ⟨h, fun _ _ => Iff.rfl⟩

/-- `LockAcquire` by a process that neither holds the mode nor waits. -/
theorem lockAcquireShared_spec (h : Safe lmt lock) (hMode : IsMode lmt m) (hNot : ¬ Holds lock p m)
    (hWait : ∀ i, ¬ Waits lock p i) (dontWait : Bool) :
    Acquires lmt p m lock (lockAcquireShared lmt lock p m dontWait) := by
  obtain ⟨hEntered, hHolds, hWaits⟩ := h.enterProc p
  have hQueue : ∀ w ∈ (lock.enterProc p).waitProcs, w.proc ≠ p :=
    not_waits_iff.mp fun i hi => hWait i ((hWaits p i).mp hi)
  have hNotEntered : ¬ Holds (lock.enterProc p) p m := fun hHeld => hNot ((hHolds p m).mp hHeld)
  have hAsked := hEntered.toConsistent.request hMode (hasProc_enterProc lock p) hNotEntered hQueue
  have hBlocked : AllBlocked lmt ((lock.enterProc p).request m) []
      ((lock.enterProc p).request m).waitProcs :=
    hEntered.blocked.mono fun _ _ hHeld => hHeld
  -- what is shown of the lock with its new `PROCLOCK` holds of the lock before
  have hBack : ∀ {r : Lock × AcquireResult × List Nat},
      Acquires lmt p m ((lock.enterProc p).request m) r → Acquires lmt p m lock r := by
    rintro ⟨lock', result, ws⟩ ⟨hSafe, hEffect, hPost⟩
    refine ⟨hSafe, hEffect.start (fun q i _ => hHolds q i) fun q i _ => hWaits q i, ?_⟩
    have hSame : ∀ i, Holds ((lock.enterProc p).request m) p i ↔ Holds lock p i := hHolds p
    cases result with
    | alreadyHeld => exact hPost
    | ok => exact ⟨fun i => (hPost.1 i).trans (or_congr_left (hSame i)), hPost.2⟩
    | sleeping => exact ⟨fun i => (hPost.1 i).trans (hSame i), hPost.2⟩
    | notAvail => exact ⟨fun i => (hPost.1 i).trans (hSame i), hPost.2⟩
    | deadlock => exact ⟨fun i => (hPost.1 i).trans (hSame i), hPost.2⟩
  apply hBack
  have hFresh : ¬ (((lock.enterProc p).request m).holdMask p).getLsbD m := hAsked.not_holding
  rw [lockAcquireShared, if_neg hFresh]
  split
  · next hFree =>
    rw [Bool.and_eq_true] at hFree
    exact hAsked.grant_spec hBlocked hFree.2
  · next hFree =>
    cases dontWait with
    | true =>
      obtain ⟨hSafe, hSame⟩ := hEntered.notAvail hQueue m
      have hQueueSame : ∀ q i, Waits ((if ((lock.enterProc p).request m).holdMask p = 0 then
          ((lock.enterProc p).request m).removeProc p
          else (lock.enterProc p).request m).unrequest m) q i ↔
          Waits ((lock.enterProc p).request m) q i := by
        intro q i
        split_ifs <;> exact Iff.rfl
      refine ⟨hSafe, Effect.silent (fun q i _ => hSame q i) (fun q i _ => hQueueSame q i),
        fun i => hSame p i, fun i hi => ?_⟩
      exact not_waits_iff.mpr hQueue i ((hQueueSame p i).mp hi)
    | false =>
      refine procSleep_spec hAsked hBlocked (blocked_of_conflict hAsked.toWellformed ?_ hFree)
      intro i hBit
      obtain ⟨q, v, hv, -, hi⟩ :=
        (waiters_pos_iff (lock.enterProc p) i).mp ((hEntered.waitMask_iff i).mp hBit)
      exact ⟨v, hv, hi⟩

/-! ## `LockRelease` and `LockReleaseAll` -/

/-- When `UnGrantLock` sees no need for a wakeup, the waiters stay blocked: none of them
wants a mode that conflicts with the released one. -/
theorem AllBlocked.unGrantLock (h : Consistent lmt lock) (hHolds : Holds lock p m)
    (hBlocked : AllBlocked lmt lock [] lock.waitProcs)
    (hNeeded : (unGrantLock lmt lock m p).2 = false) :
    AllBlocked lmt (unGrantLock lmt lock m p).1 [] (unGrantLock lmt lock m p).1.waitProcs := by
  have hMode := h.held_modes p m hHolds
  refine hBlocked.imp (List.Subset.refl _) fun w hw q n _ hHeld hConf => ?_
  rw [holds_unGrantLock lmt m (hasProc_of_holds hHolds)]
  refine ⟨hHeld, ?_⟩
  rintro ⟨rfl, rfl⟩
  -- the bit of the waiter's mode is in the wait mask
  have hBit : lock.waitMask.getLsbD w.waitLockMode :=
    (h.waitMask_iff _).mpr ((waiters_pos_iff lock _).mpr ⟨w.proc, w, hw, rfl, rfl⟩)
  have hMeets : meets (lmt.conflictTab n) lock.waitMask :=
    (meets_iff _ _).mpr ⟨w.waitLockMode, hConf.symm (h.queued w hw).2.1 hMode, hBit⟩
  have hDef : (Lmgr.unGrantLock lmt lock n q).2 = meets (lmt.conflictTab n) lock.waitMask := rfl
  rw [hDef, hMeets] at hNeeded
  cases hNeeded

/-- The loop over the modes of a `PROCLOCK`: the modes of `releaseMask` are released one
after the other, and the waiters are blocked as long as no wakeup is needed. -/
theorem unGrantModes_spec (releaseMask : LockMask) (modes : List Nat) :
    ∀ (lock : Lock) (needed : Bool), modes.Nodup → Consistent lmt lock →
      (∀ i ∈ modes, releaseMask.getLsbD i → Holds lock p i) →
      (needed = false → AllBlocked lmt lock [] lock.waitProcs) →
      let r := unGrantModes lmt p releaseMask lock needed modes
      Consistent lmt r.1 ∧ (r.2 = false → AllBlocked lmt r.1 [] r.1.waitProcs) ∧
        (∀ q i, Holds r.1 q i ↔
          Holds lock q i ∧ ¬ (q = p ∧ i ∈ modes ∧ releaseMask.getLsbD i)) ∧
        r.1.waitProcs = lock.waitProcs := by
  induction modes with
  | nil =>
    intro lock needed _ h _ hBlocked
    rw [unGrantModes]
    exact ⟨h, hBlocked, by simp, rfl⟩
  | cons m modes ih =>
    intro lock needed hNodup h hHeld hBlocked
    rw [nodup_cons] at hNodup
    by_cases hBit : releaseMask.getLsbD m
    · have hHolds := hHeld m mem_cons_self hBit
      have hAfter := holds_unGrantLock lmt m (hasProc_of_holds hHolds)
      have hRest : ∀ i ∈ modes, releaseMask.getLsbD i →
          Holds (unGrantLock lmt lock m p).1 p i := by
        intro i hi hBitI
        refine (hAfter p i).mpr ⟨hHeld i (mem_cons_of_mem m hi) hBitI, ?_⟩
        rintro ⟨-, rfl⟩
        exact hNodup.1 hi
      have hStill : (needed || (unGrantLock lmt lock m p).2) = false →
          AllBlocked lmt (unGrantLock lmt lock m p).1 []
            (unGrantLock lmt lock m p).1.waitProcs := by
        intro hNone
        rw [Bool.or_eq_false_iff] at hNone
        exact AllBlocked.unGrantLock h hHolds (hBlocked hNone.1) hNone.2
      obtain ⟨hCons, hBlockedEnd, hHoldsEnd, hQueue⟩ :=
        ih _ (needed || (unGrantLock lmt lock m p).2) hNodup.2 (h.unGrantLock hHolds) hRest hStill
      rw [unGrantModes, if_pos hBit]
      refine ⟨hCons, hBlockedEnd, fun q i => ?_, hQueue⟩
      rw [hHoldsEnd, hAfter, and_assoc]
      by_cases hi : i = m
      · subst hi
        by_cases hq : q = p
        · simp [hBit, hq]
        · simp [hq]
      · simp [hi]
    · rw [unGrantModes, if_neg hBit]
      obtain ⟨hCons, hBlockedEnd, hHoldsEnd, hQueue⟩ := ih lock needed hNodup.2 h
        (fun i hi => hHeld i (mem_cons_of_mem m hi)) hBlocked
      refine ⟨hCons, hBlockedEnd, fun q i => ?_, hQueue⟩
      rw [hHoldsEnd]
      by_cases hi : i = m
      · subst hi
        simp [hBit]
      · simp [hi]

theorem nodup_modes (lmt : LockMethod) : lmt.modes.Nodup := nodup_range'

/-- After a release by a process that does not wait, `CleanUpLock` wakes the waiters. -/
theorem release_spec (lock : Lock) {released : Lock} {needed : Bool} (h : Consistent lmt released)
    (hBlocked : needed = false → AllBlocked lmt released [] released.waitProcs)
    (hQueue : released.waitProcs = lock.waitProcs) (hWait : ∀ i, ¬ Waits lock p i)
    (hHolds : ∀ q i, q ≠ p → (Holds released q i ↔ Holds lock q i)) :
    Leaves lmt p lock (Holds released p) (cleanUpLock lmt released p needed) := by
  have hWaits : ∀ q i, Waits released q i ↔ Waits lock q i := by
    intro q i
    rw [Waits, hQueue, Waits]
  have hNone : ∀ i, ¬ Waits released p i := fun i hi => hWait i ((hWaits p i).mp hi)
  obtain ⟨hSafe, hWoke⟩ := cleanUpLock_spec h (not_waits_iff.mp hNone) hBlocked
  exact Effect.wake hHolds (fun q i _ => hWaits q i) hNone hSafe hWoke

/-- `LockRelease` of a mode the process holds, by a process that does not wait. -/
theorem unGrant_cleanUp_spec (h : Safe lmt lock) (hHolds : Holds lock p m)
    (hWait : ∀ i, ¬ Waits lock p i) :
    Leaves lmt p lock (fun i => Holds lock p i ∧ i ≠ m)
      (cleanUpLock lmt (unGrantLock lmt lock m p).1 p (unGrantLock lmt lock m p).2) := by
  have hAfter := holds_unGrantLock lmt m (hasProc_of_holds hHolds)
  obtain ⟨hSafe, hEffect, hOwn, hNot⟩ := release_spec lock (h.toConsistent.unGrantLock hHolds)
    (AllBlocked.unGrantLock h.toConsistent hHolds h.blocked) rfl hWait
    (fun q i hq => by rw [hAfter q i]; simp [hq])
  refine ⟨hSafe, hEffect, fun i => ?_, hNot⟩
  rw [hOwn i, hAfter p i]
  simp

/-- `LockReleaseAll` on one `PROCLOCK` of a process that does not wait. -/
theorem releaseProcLock_spec (h : Safe lmt lock) (hWait : ∀ i, ¬ Waits lock p i) {allLocks : Bool}
    {mask : LockMask} (hMask : ∀ i, mask.getLsbD i → Holds lock p i)
    (hAll : allLocks → ∀ i, Holds lock p i → mask.getLsbD i) :
    Leaves lmt p lock (fun i => Holds lock p i ∧ mask.getLsbD i = false)
      (releaseProcLock lmt lock p allLocks mask) := by
  -- with `allLocks` the mask is the hold mask itself
  have hBits : ∀ i, (if allLocks then lock.holdMask p else mask).getLsbD i = mask.getLsbD i := by
    intro i
    split_ifs with hSome
    · exact Bool.eq_iff_iff.mpr ⟨hAll hSome i, hMask i⟩
    · rfl
  have hEq : (if allLocks then lock.holdMask p else mask) = mask :=
    BitVec.eq_of_getLsbD_eq fun i _ => hBits i
  rw [releaseProcLock, hEq]
  split_ifs with hSkip
  · refine ⟨h, Effect.silent (fun _ _ _ => Iff.rfl) (fun _ _ _ => Iff.rfl), fun i => ?_, hWait⟩
    rw [hSkip.1]
    simp
  · obtain ⟨hCons, hBlocked, hHolds, hQueue⟩ := unGrantModes_spec mask lmt.modes lock false
      (nodup_modes lmt) h.toConsistent (fun i _ => hMask i) fun _ => h.blocked
    obtain ⟨hSafe, hEffect, hOwn, hNot⟩ := release_spec lock hCons hBlocked hQueue hWait
      (fun q i hq => by rw [hHolds q i]; simp [hq])
    refine ⟨hSafe, hEffect, fun i => ?_, hNot⟩
    rw [hOwn i, hHolds p i]
    refine and_congr_right fun hHeld => ?_
    have hMem : i ∈ lmt.modes := mem_modes.mpr (h.held_modes p i hHeld)
    simp [hMem]

end PgTuning.Lmgr
