import PgTuning.Storage.LockTable

/-!
# The bookkeeping of a lock object

The counters and masks of a `LOCK` agree with its holders and its waiters between two
critical sections (`Consistent`). A request is first counted, and then granted, put
in the queue or taken back; in between the lock is `Asked`.
-/

namespace PgTuning.Lmgr

open PgTuning.Lib List Function Bool Nat

/-- The part of the bookkeeping that requests do not touch. -/
structure Wellformed (lmt : LockMethod) (lock : Lock) : Prop where
  unique : UniqueProcs lock
  granted_eq : ∀ m, lock.granted m = holders lock m
  grantMask_iff : ∀ m, lock.grantMask.getLsbD m = true ↔ 0 < holders lock m
  held_modes : ∀ p m, Holds lock p m → IsMode lmt m
  compatible : ∀ p q m n, p ≠ q → Holds lock p m → Holds lock q n → ¬ Conflicts lmt m n
  queue_nodup : (lock.waitProcs.map Waiter.proc).Nodup
  queued : ∀ w ∈ lock.waitProcs, lock.hasProc w.proc = true ∧ IsMode lmt w.waitLockMode ∧
    ¬ Holds lock w.proc w.waitLockMode

/-- A lock between two critical sections. -/
structure Consistent (lmt : LockMethod) (lock : Lock) : Prop extends Wellformed lmt lock where
  requested_eq : ∀ m, lock.requested m = lock.granted m + waiters lock m
  nRequested_eq : lock.nRequested = ∑ m ∈ Finset.range maxLockmodes, lock.requested m
  waitMask_iff : ∀ m, lock.waitMask.getLsbD m = true ↔ 0 < waiters lock m

/-- A lock on which a request of `p` for `m` is counted, but neither granted nor in the
queue. The bit of `m` in the wait mask may be left over from `p`'s own wait. -/
structure Asked (lmt : LockMethod) (p m : Nat) (lock : Lock) : Prop
    extends Wellformed lmt lock where
  mode : IsMode lmt m
  entered : lock.hasProc p = true
  not_holding : ¬ Holds lock p m
  not_waiting : ∀ w ∈ lock.waitProcs, w.proc ≠ p
  requested_eq : ∀ i, lock.requested i =
    lock.granted i + waiters lock i + if i = m then 1 else 0
  nRequested_eq : lock.nRequested = ∑ i ∈ Finset.range maxLockmodes, lock.requested i
  waitMask_of_waiters : ∀ i, 0 < waiters lock i → lock.waitMask.getLsbD i = true
  waiters_of_waitMask : ∀ i, i ≠ m → lock.waitMask.getLsbD i = true → 0 < waiters lock i

variable {lmt : LockMethod} {lock : Lock} {p q m n : Nat} {f : Nat → Nat}

theorem Wellformed.same {lock' : Lock} (h : Wellformed lmt lock) (hUnique : UniqueProcs lock')
    (hHolds : ∀ q, lock'.holdMask q = lock.holdMask q)
    (hHolders : ∀ m, holders lock' m = holders lock m)
    (hProcs : ∀ w ∈ lock.waitProcs, lock.hasProc w.proc → lock'.hasProc w.proc)
    (hGranted : lock'.granted = lock.granted) (hMask : lock'.grantMask = lock.grantMask)
    (hQueue : lock'.waitProcs = lock.waitProcs) : Wellformed lmt lock' where
  unique := hUnique
  granted_eq m := by rw [hGranted, hHolders, h.granted_eq]
  grantMask_iff m := by rw [hMask, hHolders, h.grantMask_iff]
  held_modes q m hq := h.held_modes q m (by rwa [Holds, hHolds] at hq)
  compatible q r m n hne hq hr := by
    rw [Holds, hHolds] at hq hr
    exact h.compatible q r m n hne hq hr
  queue_nodup := by
    rw [hQueue]
    exact h.queue_nodup
  queued w hw := by
    rw [hQueue] at hw
    obtain ⟨hp, hMode, hNot⟩ := h.queued w hw
    refine ⟨hProcs w hw hp, hMode, ?_⟩
    rwa [Holds, hHolds]

/-! ## Counting requests -/

theorem update_succ_apply (f : Nat → Nat) (m i : Nat) :
    update f m (f m + 1) i = f i + if i = m then 1 else 0 := by
  by_cases hi : i = m
  · simp [hi]
  · simp [hi]

theorem update_pred_apply (hPos : 0 < f m) (i : Nat) :
    f i = update f m (f m - 1) i + if i = m then 1 else 0 := by
  by_cases hi : i = m
  · simp [hi, Nat.sub_add_cancel hPos]
  · simp [hi]

theorem sum_update_succ {k : Nat} (h : m < k) :
    ∑ i ∈ Finset.range k, update f m (f m + 1) i = (∑ i ∈ Finset.range k, f i) + 1 := by
  have hMem : m ∈ Finset.range k := Finset.mem_range.mpr h
  rw [Finset.sum_update_of_mem hMem, Finset.sum_eq_add_sum_sdiff_singleton_of_mem hMem f]
  omega

theorem sum_update_pred {k : Nat} (h : m < k) (hPos : 0 < f m) :
    ∑ i ∈ Finset.range k, update f m (f m - 1) i = (∑ i ∈ Finset.range k, f i) - 1 := by
  have hMem : m ∈ Finset.range k := Finset.mem_range.mpr h
  rw [Finset.sum_update_of_mem hMem, Finset.sum_eq_add_sum_sdiff_singleton_of_mem hMem f]
  omega

theorem Lock.unrequest_request (lock : Lock) (m : Nat) : (lock.request m).unrequest m = lock := by
  simp [Lock.request, Lock.unrequest]

/-! ## `LockCheckConflicts` -/

section

variable (h : Wellformed lmt lock)
include h

theorem otherLocks_getLsbD (p n : Nat) :
    (otherLocks lmt lock (lock.holdMask p)).getLsbD n ↔
      ∃ q, q ≠ p ∧ Holds lock q n := by
  have hBits : (otherLocks lmt lock (lock.holdMask p)).getLsbD n =
      ((0 : LockMask).getLsbD n || (decide (n ∈ lmt.modes) &&
        decide (lock.granted n > if (lock.holdMask p).getLsbD n then 1 else 0))) := by
    rw [← getLsbD_foldl_or (fun i => decide (lock.granted i >
      if (lock.holdMask p).getLsbD i then 1 else 0)) n lmt.modes
      (fun j hj => (mem_modes.mp hj).lt)]
    simp only [otherLocks, lockbitOn, decide_eq_true_eq]
  have hCount : lock.granted n > (if (lock.holdMask p).getLsbD n then 1 else 0) ↔
      0 < otherHolders lock p n := by
    rw [h.granted_eq n, holders_eq h.unique p n]
    cases (lock.holdMask p).getLsbD n <;> simp
  rw [hBits, ← otherHolders_pos_iff h.unique, ← hCount]
  simp only [BitVec.ofNat_eq_ofNat, BitVec.getLsbD_zero, Bool.false_or, Bool.and_eq_true,
    decide_eq_true_eq, and_iff_right_iff_imp]
  intro hGranted
  rw [hCount, otherHolders_pos_iff h.unique] at hGranted
  obtain ⟨q, -, hq⟩ := hGranted
  exact mem_modes.mpr (h.held_modes q n hq)

/-- `LockCheckConflicts` finds exactly the conflicts with the modes of other processes. -/
theorem lockCheckConflicts_iff (p m : Nat) :
    lockCheckConflicts lmt m lock p ↔
      ∀ q n, q ≠ p → Holds lock q n → ¬ Conflicts lmt m n := by
  have hOther : meets (lmt.conflictTab m) (otherLocks lmt lock (lock.holdMask p)) ↔
      ∃ n q, Conflicts lmt m n ∧ q ≠ p ∧ Holds lock q n := by
    rw [meets_iff]
    simp only [otherLocks_getLsbD h, Conflicts, exists_and_left]
  unfold lockCheckConflicts
  split_ifs with hGrant
  · -- nobody at all holds a conflicting mode
    refine ⟨fun _ q n _ hHolds hConf => ?_, fun _ => rfl⟩
    rw [not_eq_true', eq_false_iff, ne_eq, meets_iff] at hGrant
    exact hGrant ⟨n, hConf, (h.grantMask_iff n).mpr ((holders_pos_iff h.unique n).mpr ⟨q, hHolds⟩)⟩
  · rw [not_eq_true', eq_false_iff, ne_eq, hOther]
    constructor
    · intro hNone q n hq hHolds hConf
      exact hNone ⟨n, q, hConf, hq, hHolds⟩
    · rintro hAll ⟨n, q, hConf, hq, hHolds⟩
      exact hAll q n hq hHolds hConf

/-! ## From one state to the other -/

theorem Wellformed.enterProc (p : Nat) : Wellformed lmt (lock.enterProc p) := by
  have hHolds := holdMask_enterProc lock p
  have hUnique := h.unique.enterProc p
  unfold Lock.enterProc at hHolds hUnique ⊢
  split_ifs at hHolds hUnique ⊢
  · exact h
  · refine h.same hUnique hHolds (fun m => by simp [holders]) (fun w _ hw => ?_) rfl rfl rfl
    rw [hasProc_iff] at hw ⊢
    rw [map_append]
    exact mem_append_left _ hw

/-- Deleting the `PROCLOCK` of a process that holds nothing and does not wait. -/
theorem Wellformed.removeProc (hNone : lock.holdMask p = 0)
    (hWait : ∀ w ∈ lock.waitProcs, w.proc ≠ p) : Wellformed lmt (lock.removeProc p) := by
  refine h.same (h.unique.removeProc p) (holdMask_removeProc hNone) (fun m => ?_) (fun w hw hp => ?_)
    rfl rfl rfl
  · rw [holders_eq h.unique p m, hNone]
    simp [holders, otherHolders, Lock.removeProc]
  · rw [hasProc_removeProc (hWait w hw)]
    exact hp

end

theorem UniqueProcs.setHold (h : UniqueProcs lock) (p : Nat) (v : LockMask) :
    UniqueProcs (lock.setHold p v) := by
  rw [UniqueProcs, map_proc_setHold]
  exact h

theorem hasProc_setHold (lock : Lock) (p : Nat) (v : LockMask) (q : Nat) :
    (lock.setHold p v).hasProc q = lock.hasProc q := by
  rw [Bool.eq_iff_iff, hasProc_iff, hasProc_iff, map_proc_setHold]

theorem holders_setHold (h : UniqueProcs lock) (hProc : lock.hasProc p) (v : LockMask)
    (i : Nat) : holders (lock.setHold p v) i = (v.getLsbD i).toNat + otherHolders lock p i := by
  rw [holders_eq (h.setHold p v) p i, holdMask_setHold hProc, if_pos rfl, otherHolders_setHold]

/-! ### Granting -/

theorem holds_grantLock (hProc : lock.hasProc p) (hm : m < 32) (q i : Nat) :
    Holds (grantLock lock p m) q i ↔ Holds lock q i ∨ (q = p ∧ i = m) := by
  have hMask : (grantLock lock p m).holdMask q =
      if q = p then lock.holdMask p ||| lockbitOn m else lock.holdMask q :=
    holdMask_setHold hProc _ q
  rw [Holds, Holds, hMask]
  split_ifs with hq
  · rw [getLsbD_or_lockbitOn _ hm, hq, or_eq_true, decide_eq_true_eq]
    exact or_congr_right ⟨fun hi => ⟨rfl, hi.symm⟩, fun hi => hi.2.symm⟩
  · simp [hq]

theorem holders_grantLock (h : UniqueProcs lock) (hProc : lock.hasProc p) (hm : m < 32)
    (hNot : ¬ Holds lock p m) (i : Nat) :
    holders (grantLock lock p m) i = holders lock i + if i = m then 1 else 0 := by
  have hSet : holders (grantLock lock p m) i =
      holders (lock.setHold p (lock.holdMask p ||| lockbitOn m)) i := rfl
  rw [hSet, holders_setHold h hProc, holders_eq h p i, getLsbD_or_lockbitOn _ hm]
  rw [Holds, not_eq_true] at hNot
  by_cases hi : i = m
  · subst hi
    rw [hNot]
    simp [add_comm]
  · simp [hi, Ne.symm hi]

/-- The wait mask once the request is settled, if the bit of `m` is cleared when nobody
else waits for it. -/
theorem Asked.waitMask_settled (h : Asked lmt p m lock) (last : Prop) [Decidable last]
    (hLast : last ↔ waiters lock m = 0) (i : Nat) :
    (if last then lock.waitMask &&& lockbitOff m else lock.waitMask).getLsbD i ↔
      0 < waiters lock i := by
  split_ifs with hNone
  · rw [getLsbD_and_lockbitOff, and_eq_true, decide_eq_true_eq]
    constructor
    · rintro ⟨hBit, hi⟩
      exact h.waiters_of_waitMask i (Ne.symm hi) hBit
    · intro hPos
      refine ⟨h.waitMask_of_waiters i hPos, ?_⟩
      rintro rfl
      have := hLast.mp hNone
      omega
  · refine ⟨fun hBit => ?_, h.waitMask_of_waiters i⟩
    by_cases hi : i = m
    · rw [hi]
      exact Nat.pos_of_ne_zero fun hZero => hNone (hLast.mpr hZero)
    · exact h.waiters_of_waitMask i hi hBit

/-- `GrantLock` after `LockCheckConflicts` has found no conflict. -/
theorem Asked.grantLock (h : Asked lmt p m lock)
    (hFree : ∀ q n, q ≠ p → Holds lock q n → ¬ Conflicts lmt m n) :
    Consistent lmt (grantLock lock p m) := by
  have hHolds := holds_grantLock h.entered h.mode.lt
  have hHolders := holders_grantLock h.unique h.entered h.mode.lt h.not_holding
  have hGranted : ∀ i, (Lmgr.grantLock lock p m).granted i =
      lock.granted i + if i = m then 1 else 0 := update_succ_apply lock.granted m
  have hProc : ∀ q, (Lmgr.grantLock lock p m).hasProc q = lock.hasProc q := hasProc_setHold lock p _
  refine
    { h with
      unique := h.unique.setHold p _
      granted_eq := fun i => by rw [hGranted, hHolders, h.granted_eq]
      grantMask_iff := ?_
      held_modes := ?_
      compatible := ?_
      queued := ?_
      requested_eq := ?_
      waitMask_iff := ?_ }
  · intro i
    have hMask : (Lmgr.grantLock lock p m).grantMask = lock.grantMask ||| lockbitOn m := rfl
    rw [hMask, getLsbD_or_lockbitOn _ h.mode.lt, hHolders, or_eq_true, h.grantMask_iff]
    by_cases hi : i = m
    · simp [hi]
    · simp [hi, Ne.symm hi]
  · intro q i hq
    rcases (hHolds q i).mp hq with hOld | ⟨-, hi⟩
    · exact h.held_modes q i hOld
    · exact hi ▸ h.mode
  · intro q r i j hne hq hr
    rcases (hHolds q i).mp hq with hOldQ | ⟨hqp, him⟩
    · rcases (hHolds r j).mp hr with hOldR | ⟨hrp, hjm⟩
      · exact h.compatible q r i j hne hOldQ hOldR
      · -- the other process held `i` already, and `m` does not conflict with it
        intro hConf
        rw [hjm] at hConf
        exact hFree q i (hrp ▸ hne) hOldQ (hConf.symm (h.held_modes q i hOldQ) h.mode)
    · rcases (hHolds r j).mp hr with hOldR | ⟨hrp, -⟩
      · rw [him]
        exact hFree r j (hqp ▸ hne.symm) hOldR
      · exact absurd (hqp.trans hrp.symm) hne
  · intro w hw
    obtain ⟨hp, hMode, hNot⟩ := h.queued w hw
    refine ⟨(hProc _).trans hp, hMode, ?_⟩
    intro hHeld
    rcases (hHolds _ _).mp hHeld with hOld | ⟨hEq, -⟩
    · exact hNot hOld
    · exact h.not_waiting w hw hEq
  · intro i
    have hReq := h.requested_eq i
    rw [hGranted]
    show lock.requested i = lock.granted i + _ + waiters lock i
    omega
  · have hMask : (Lmgr.grantLock lock p m).waitMask =
        if lock.granted m + 1 = lock.requested m then lock.waitMask &&& lockbitOff m
        else lock.waitMask := by simp [Lmgr.grantLock]
    have hReq := h.requested_eq m
    rw [if_pos rfl] at hReq
    rw [hMask]
    exact h.waitMask_settled _ (by omega)

/-! ### Waiting and giving up -/

theorem waiters_joinQueue (lock : Lock) (p m place i : Nat) :
    waiters (joinQueue lock p m place) i = waiters lock i + if i = m then 1 else 0 := by
  have hSplit : waiters lock i =
      (lock.waitProcs.take place).countP (fun w => w.waitLockMode == i) +
        (lock.waitProcs.drop place).countP (fun w => w.waitLockMode == i) := by
    rw [← countP_append, take_append_drop, waiters]
  rw [hSplit, waiters, joinQueue]
  by_cases hi : i = m
  · simp [hi, add_assoc]
  · simp [hi, Ne.symm hi]

theorem mem_joinQueue {lock : Lock} {p m place : Nat} {w : Waiter} :
    w ∈ (joinQueue lock p m place).waitProcs ↔
      w = ⟨p, m, lock.holdMask p⟩ ∨ w ∈ lock.waitProcs := by
  have hOld : w ∈ lock.waitProcs ↔
      w ∈ lock.waitProcs.take place ∨ w ∈ lock.waitProcs.drop place := by
    rw [← mem_append, take_append_drop]
  rw [hOld, joinQueue]
  rw [mem_append, mem_cons]
  exact or_left_comm

theorem Asked.joinQueue (h : Asked lmt p m lock) (place : Nat) :
    Consistent lmt (joinQueue lock p m place) := by
  have hWaiters := waiters_joinQueue lock p m place
  refine
    { h with
      queue_nodup := ?_
      queued := ?_
      requested_eq := ?_
      waitMask_iff := ?_ }
  · have hPerm : ((Lmgr.joinQueue lock p m place).waitProcs.map Waiter.proc).Perm
        (p :: lock.waitProcs.map Waiter.proc) := by
      rw [Lmgr.joinQueue]
      rw [map_append, map_cons, map_take, map_drop]
      exact perm_middle.trans (by rw [take_append_drop])
    rw [hPerm.nodup_iff, nodup_cons]
    refine ⟨?_, h.queue_nodup⟩
    rw [mem_map]
    rintro ⟨w, hw, hEq⟩
    exact h.not_waiting w hw hEq
  · intro w hw
    rcases mem_joinQueue.mp hw with rfl | hOld
    · exact ⟨h.entered, h.mode, h.not_holding⟩
    · exact h.queued w hOld
  · intro i
    rw [hWaiters, ← add_assoc]
    exact h.requested_eq i
  · intro i
    have hMask : (Lmgr.joinQueue lock p m place).waitMask = lock.waitMask ||| lockbitOn m := rfl
    rw [hMask, hWaiters, getLsbD_or_lockbitOn _ h.mode.lt, or_eq_true, decide_eq_true_eq]
    by_cases hi : i = m
    · simp [hi]
    · rw [if_neg hi]
      constructor
      · rintro (hBit | hEq)
        · exact h.waiters_of_waitMask i hi hBit
        · exact absurd hEq.symm hi
      · exact fun hPos => Or.inl (h.waitMask_of_waiters i hPos)

/-- The end of a request that is given up: the counts go back, and the bit of the mode
leaves the wait mask when nobody else waits for it. -/
def giveUp (lock : Lock) (m : Nat) : Lock :=
  let lock := lock.unrequest m
  if lock.granted m = lock.requested m then
    { lock with waitMask := lock.waitMask &&& lockbitOff m }
  else lock

theorem Asked.giveUp (h : Asked lmt p m lock) : Consistent lmt (giveUp lock m) := by
  have hReq := h.requested_eq m
  rw [if_pos rfl] at hReq
  have hUnreq : ∀ i, (lock.unrequest m).requested i = lock.granted i + waiters lock i := by
    intro i
    have hBack := update_pred_apply (f := lock.requested) (m := m) (by omega) i
    rw [h.requested_eq i] at hBack
    exact (add_right_cancel hBack).symm
  have hSum : (lock.unrequest m).nRequested =
      ∑ i ∈ Finset.range maxLockmodes, (lock.unrequest m).requested i := by
    simp only [Lock.unrequest]
    rw [sum_update_pred h.mode.lt_max (by omega), h.nRequested_eq]
  have hMask := h.waitMask_settled ((lock.unrequest m).granted m = (lock.unrequest m).requested m)
    (by rw [hUnreq m]; exact left_eq_add)
  unfold Lmgr.giveUp
  dsimp only
  split_ifs with hLast
  · rw [if_pos hLast] at hMask
    exact { h with requested_eq := hUnreq, nRequested_eq := hSum, waitMask_iff := hMask }
  · rw [if_neg hLast] at hMask
    exact { h with requested_eq := hUnreq, nRequested_eq := hSum, waitMask_iff := hMask }

/-! ### Asking -/

theorem Consistent.request (h : Consistent lmt lock) (hMode : IsMode lmt m)
    (hProc : lock.hasProc p) (hNot : ¬ Holds lock p m)
    (hWait : ∀ w ∈ lock.waitProcs, w.proc ≠ p) : Asked lmt p m (lock.request m) := by
  refine
    { h with
      mode := hMode
      entered := hProc
      not_holding := hNot
      not_waiting := hWait
      requested_eq := ?_
      nRequested_eq := ?_
      waitMask_of_waiters := fun i => (h.waitMask_iff i).mpr
      waiters_of_waitMask := fun i _ => (h.waitMask_iff i).mp }
  · intro i
    have hReq := update_succ_apply lock.requested m i
    rw [h.requested_eq i] at hReq
    exact hReq
  · simp only [Lock.request]
    rw [sum_update_succ hMode.lt_max, h.nRequested_eq]

theorem Consistent.dequeue (h : Consistent lmt lock) {w : Waiter} (hw : w ∈ lock.waitProcs) :
    Asked lmt w.proc w.waitLockMode (lock.dequeue w.proc) := by
  obtain ⟨hProc, hMode, hNot⟩ := h.queued w hw
  have hWaiters : ∀ i, waiters lock i =
      waiters (lock.dequeue w.proc) i + if i = w.waitLockMode then 1 else 0 := by
    intro i
    rw [waiters, countP_others h.queue_nodup hw, add_comm]
    by_cases hi : i = w.waitLockMode
    · simp [hi, waiters, Lock.dequeue]
    · simp [hi, Ne.symm hi, waiters, Lock.dequeue]
  refine
    { h with
      queue_nodup := List.Nodup.sublist (List.Sublist.map _ filter_sublist) h.queue_nodup
      queued := fun v hv => h.queued v (mem_of_mem_filter hv)
      mode := hMode
      entered := hProc
      not_holding := hNot
      not_waiting := fun v hv => of_decide_eq_true (mem_filter.mp hv).2
      requested_eq := ?_
      waitMask_of_waiters := ?_
      waiters_of_waitMask := ?_ }
  · intro i
    have hReq := h.requested_eq i
    rw [hWaiters i, ← add_assoc] at hReq
    exact hReq
  · intro i hPos
    apply (h.waitMask_iff i).mpr
    rw [hWaiters i]
    omega
  · intro i hi hBit
    have hPos := (h.waitMask_iff i).mp hBit
    rw [hWaiters i, if_neg hi] at hPos
    exact hPos

/-! ### Releasing -/

theorem holds_unGrantLock (lmt : LockMethod) (m : Nat) (hProc : lock.hasProc p) (q i : Nat) :
    Holds (unGrantLock lmt lock m p).1 q i ↔ Holds lock q i ∧ ¬ (q = p ∧ i = m) := by
  have hMask : (unGrantLock lmt lock m p).1.holdMask q =
      if q = p then lock.holdMask p &&& lockbitOff m else lock.holdMask q :=
    holdMask_setHold hProc _ q
  rw [Holds, Holds, hMask]
  split_ifs with hq
  · rw [getLsbD_and_lockbitOff, hq, and_eq_true, decide_eq_true_eq]
    exact and_congr_right fun _ => ⟨fun hi h => hi h.2.symm, fun h hi => h ⟨rfl, hi.symm⟩⟩
  · simp [hq]

theorem holders_unGrantLock (lmt : LockMethod) (h : UniqueProcs lock) (hHolds : Holds lock p m)
    (i : Nat) :
    holders lock i = holders (unGrantLock lmt lock m p).1 i + if i = m then 1 else 0 := by
  have hProc := hasProc_of_holds hHolds
  have hSet : holders (unGrantLock lmt lock m p).1 i =
      holders (lock.setHold p (lock.holdMask p &&& lockbitOff m)) i := rfl
  rw [hSet, holders_setHold h hProc, holders_eq h p i, getLsbD_and_lockbitOff]
  by_cases hi : i = m
  · subst hi
    rw [hHolds]
    simp [add_comm]
  · simp [hi, Ne.symm hi]

theorem Consistent.unGrantLock (h : Consistent lmt lock) (hHolds : Holds lock p m) :
    Consistent lmt (unGrantLock lmt lock m p).1 := by
  have hProc := hasProc_of_holds hHolds
  have hMode := h.held_modes p m hHolds
  have hAfter := holds_unGrantLock lmt m hProc
  have hHolders := holders_unGrantLock lmt h.unique hHolds
  have hOwn := hHolders m
  rw [if_pos rfl] at hOwn
  have hGranted : ∀ i, lock.granted i =
      (Lmgr.unGrantLock lmt lock m p).1.granted i + if i = m then 1 else 0 := by
    have hCount := h.granted_eq m
    exact update_pred_apply (by omega)
  have hReq := h.requested_eq m
  have hGrantedOwn := hGranted m
  rw [if_pos rfl] at hGrantedOwn
  have hRequested : ∀ i, lock.requested i =
      (Lmgr.unGrantLock lmt lock m p).1.requested i + if i = m then 1 else 0 := by
    exact update_pred_apply (by omega)
  have hProcs : ∀ q, (Lmgr.unGrantLock lmt lock m p).1.hasProc q = lock.hasProc q :=
    hasProc_setHold _ p _
  refine
    { unique := h.unique.setHold p _
      granted_eq := ?_
      grantMask_iff := ?_
      held_modes := fun q i hq => h.held_modes q i ((hAfter q i).mp hq).1
      compatible := ?_
      queue_nodup := h.queue_nodup
      queued := ?_
      requested_eq := ?_
      nRequested_eq := ?_
      waitMask_iff := h.waitMask_iff }
  · intro i
    have hCount := h.granted_eq i
    rw [hGranted i, hHolders i] at hCount
    omega
  · intro i
    have hMask : (Lmgr.unGrantLock lmt lock m p).1.grantMask =
        if (Lmgr.unGrantLock lmt lock m p).1.granted m = 0 then lock.grantMask &&& lockbitOff m
        else lock.grantMask := rfl
    have hCount := h.granted_eq m
    rw [hMask]
    have hOld := h.grantMask_iff i
    rw [hHolders i] at hOld
    split_ifs with hLast
    · rw [getLsbD_and_lockbitOff, and_eq_true, decide_eq_true_eq, hOld]
      by_cases hi : i = m
      · subst hi
        omega
      · simp [hi, Ne.symm hi]
    · rw [hOld]
      by_cases hi : i = m
      · subst hi
        omega
      · simp [hi]
  · intro q r i j hne hq hr
    exact h.compatible q r i j hne ((hAfter q i).mp hq).1 ((hAfter r j).mp hr).1
  · intro w hw
    obtain ⟨hp, hWaitMode, hNot⟩ := h.queued w hw
    exact ⟨(hProcs _).trans hp, hWaitMode, fun hHeld => hNot ((hAfter _ _).mp hHeld).1⟩
  · intro i
    have hOld := h.requested_eq i
    rw [hRequested i, hGranted i] at hOld
    show _ = _ + waiters lock i
    omega
  · show lock.nRequested - 1 = ∑ i ∈ _, update lock.requested m _ i
    rw [sum_update_pred hMode.lt_max (by omega), h.nRequested_eq]

end PgTuning.Lmgr
