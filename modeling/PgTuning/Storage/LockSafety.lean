import Mathlib.Data.Set.Card
import PgTuning.Storage.LockRuns

/-!
# Safety of the lock manager

`LockReleaseAll`, and with it every critical section, keeps the invariant. In every
state of every run the counters and masks of a lock say who holds and who waits, two
processes never hold conflicting modes, and nobody waits who could be granted.
-/

namespace PgTuning.Lmgr

open PgTuning.Lib List Nat

variable {Tag : Type} {lmt : LockMethod} {hashcode : Tag → Nat} {s : LockState Tag} {p m : Nat}

/-! ## Marking -/

theorem releaseMark_getLsbD (pg : PGProc Tag) (allLocks : Bool) (tag : Tag) (m : Nat) :
    (releaseMark lmt pg allLocks tag).getLsbD m ↔
      IsMode lmt m ∧ (pg.locals tag m).keepsSession allLocks = false ∧ Counts pg tag m := by
  have hBits := getLsbD_foldl_or
    (fun i => !(pg.locals tag i).keepsSession allLocks && decide ((pg.locals tag i).nLocks > 0))
    m lmt.modes (fun j hj => (mem_modes.mp hj).lt) 0
  have hDef : releaseMark lmt pg allLocks tag = lmt.modes.foldl (fun mask j =>
      if (!(pg.locals tag j).keepsSession allLocks && decide ((pg.locals tag j).nLocks > 0))
      then mask ||| BitVec.twoPow 32 j else mask) 0 := rfl
  rw [hDef, hBits, Counts]
  simp [mem_modes]

variable {pg : PGProc Tag} {allLocks : Bool} {marks : List (Tag × LockMask)} {lock : Lock}

/-- The first loop of `LockReleaseAll` marks what the process holds and no longer
counts. -/
theorem releaseOk_markReleases (h : ProcInv lmt hashcode s p)
    (hSafe : ∀ tag, Safe lmt (s.locks tag))
    (hCounts : ∀ tag m, Counts (s.procs p) tag m ↔ holdsAt s p tag m)
    (hNoWait : ∀ tag m, ¬ waitsAt s p tag m) (allLocks : Bool)
    (hLocals : ∀ tag m, pg.locals tag m = ((s.procs p).locals tag m).afterReleaseAll allLocks) :
    ReleaseOk (holdsAt s p) (waitsAt s p) pg allLocks
      ((s.procs p).myProcLocks.map fun tag => (tag, releaseMark lmt (s.procs p) allLocks tag)) := by
  have hKept : ∀ tag m, Counts pg tag m ↔
      ((s.procs p).locals tag m).keepsSession allLocks := by
    intro tag m
    rw [Counts, hLocals, LocalLock.afterReleaseAll_pos_iff]
  have hTags : ((s.procs p).myProcLocks.map fun tag =>
      (tag, releaseMark lmt (s.procs p) allLocks tag)).map Prod.fst = (s.procs p).myProcLocks := by
    rw [map_map]
    exact map_id _
  refine
    { not_waiting := hNoWait
      marks_nodup := by rw [hTags]; exact h.links_nodup
      marked := ?_
      counted := ?_
      unmarked := ?_
      all := ?_ }
  · intro mark hMark m
    obtain ⟨tag, -, rfl⟩ := mem_map.mp hMark
    rw [releaseMark_getLsbD, hKept, hCounts, Bool.not_eq_true]
    constructor
    · rintro ⟨-, hFree, hHeld⟩
      exact ⟨hHeld, hFree⟩
    · rintro ⟨hHeld, hFree⟩
      exact ⟨(hSafe tag).held_modes p m hHeld, hFree, hHeld⟩
  · intro tag m hCounted
    rw [hKept] at hCounted
    exact (hCounts tag m).mp (LocalLock.pos_of_keepsSession (h.locals_ok tag m) hCounted)
  · intro tag hTag m hHeld
    rw [hTags] at hTag
    exact absurd (h.linked tag m (Or.inl hHeld)) hTag
  · intro hAll tag m hCounted
    rw [hKept, hAll] at hCounted
    cases hCounted

theorem markReleases_inv (h : LockInv lmt hashcode s) (hRun : (s.procs p).phase = .running)
    (allLocks : Bool) : LockInv lmt hashcode (markReleases lmt s p allLocks) := by
  have hOwn := h.procs p
  have hPhase := hOwn.phase_ok
  rw [hRun] at hPhase
  refine (h.othersOk p).finish (fun t i => LocalLock.ok_afterReleaseAll _ _) hOwn.links ?_
  exact ⟨releaseOk_markReleases hOwn h.safe hPhase.1 hPhase.2 allLocks fun _ _ => rfl,
    fun _ _ => zero_le _⟩

/-! ## Releasing the marked modes -/

section

variable {hold wait : Tag → Nat → Prop} (h : ReleaseOk hold wait pg allLocks marks)
include h

theorem ReleaseOk.perm {marks' : List (Tag × LockMask)} (hPerm : marks.Perm marks') :
    ReleaseOk hold wait pg allLocks marks' :=
  { h with
    marks_nodup := (hPerm.map Prod.fst).nodup_iff.mp h.marks_nodup
    marked := fun mark hMark => h.marked mark (hPerm.mem_iff.mpr hMark)
    unmarked := fun tag hTag =>
      h.unmarked tag fun hMem => hTag ((hPerm.map Prod.fst).mem_iff.mp hMem) }

theorem ReleaseOk.sameLocals {pg' : PGProc Tag} (hLocals : pg'.locals = pg.locals) :
    ReleaseOk hold wait pg' allLocks marks := by
  obtain ⟨locals', links', status', phase'⟩ := pg'
  cases hLocals
  exact { h with }

end

theorem initial_inv (lmt : LockMethod) (hashcode : Tag → Nat) :
    LockInv lmt hashcode (LockState.initial : LockState Tag) := by
  have hHolds : ∀ p tag m, ¬ holdsAt (LockState.initial : LockState Tag) p tag m :=
    fun p _ m => (safe_empty lmt).not_holds_of_unrequested rfl p m
  have hWaits : ∀ p tag m, ¬ waitsAt (LockState.initial : LockState Tag) p tag m :=
    fun p _ m => (safe_empty lmt).not_waits_of_unrequested rfl p m
  refine ⟨fun _ => safe_empty lmt, fun p => ?_⟩
  refine ⟨fun _ _ => LocalLock.ok_none, nodup_nil, ?_, ?_, hWaits p⟩
  · rintro tag m (hHeld | hWait)
    · exact absurd hHeld (hHolds p tag m)
    · exact absurd hWait (hWaits p tag m)
  · intro tag m
    exact iff_of_false (lt_irrefl 0) (hHolds p tag m)

variable [DecidableEq Tag]

/-- Between two `PROCLOCK`s of the second loop, with `marks` still to be released. -/
structure Releasing (lmt : LockMethod) (hashcode : Tag → Nat) (p : Nat) (allLocks : Bool)
    (marks : List (Tag × LockMask)) (s : LockState Tag) : Prop where
  others : OthersOk lmt hashcode s p
  links : LinksOk s p (s.procs p).myProcLocks
  release : ReleaseOk (holdsAt s p) (waitsAt s p) (s.procs p) allLocks marks

/-- One `PROCLOCK` of the second loop: what was marked on it is no longer held. -/
theorem releaseProcLock_step {mark : Tag × LockMask}
    (h : Releasing lmt hashcode p allLocks (mark :: marks) s) :
    ∃ lock' ws, releaseProcLock lmt (s.locks mark.1) p allLocks mark.2 = (lock', ws) ∧
      Releasing lmt hashcode p allLocks marks (s.setLock p mark.1 lock' ws) ∧
      ((s.setLock p mark.1 lock' ws).procs p).locals = (s.procs p).locals := by
  have hRel := h.release
  have hMarked := hRel.marked mark mem_cons_self
  obtain ⟨hSafe, hEffect, hAfter, hNone⟩ := releaseProcLock_spec (h.others.safe mark.1)
    (fun i => hRel.not_waiting mark.1 i) (fun i hi => ((hMarked i).mp hi).1)
    (fun hAll i hi => (hMarked i).mpr ⟨hi, hRel.all hAll mark.1 i⟩)
  rcases hResult : releaseProcLock lmt (s.locks mark.1) p allLocks mark.2 with ⟨lock', ws⟩
  rw [hResult] at hSafe hEffect hAfter hNone
  have hProc := procs_setLock_self (not_mem_woken hEffect) s mark.1 lock'
  have hLocals : ((s.setLock p mark.1 lock' ws).procs p).locals = (s.procs p).locals := by
    rw [hProc]
    rfl
  have hCounts : ∀ t i, Counts ((s.setLock p mark.1 lock' ws).procs p) t i ↔
      Counts (s.procs p) t i := by
    intro t i
    rw [Counts, hLocals, Counts]
  have hTag : mark.1 ∉ marks.map Prod.fst := (nodup_cons.mp hRel.marks_nodup).1
  -- on the visited object exactly the counted modes are still held
  have hVisited : ∀ i, holdsAt (s.setLock p mark.1 lock' ws) p mark.1 i ↔
      Counts (s.procs p) mark.1 i := by
    intro i
    rw [holdsAt_setLock, if_pos rfl, hAfter i, Bool.eq_false_iff, ne_eq, hMarked i, not_and,
      not_not]
    exact ⟨fun hBoth => hBoth.2 hBoth.1, fun hCounted =>
      ⟨hRel.counted mark.1 i hCounted, fun _ => hCounted⟩⟩
  have hElse : ∀ t, t ≠ mark.1 → ∀ i, holdsAt (s.setLock p mark.1 lock' ws) p t i ↔
      holdsAt s p t i := by
    intro t ht i
    rw [holdsAt_setLock, if_neg ht]
  refine ⟨lock', ws, rfl, ⟨h.others.setLock hSafe hEffect, ?_, ?_⟩, hLocals⟩
  · rw [hProc]
    exact h.links.setLock mark.1 hSafe ws
  · refine
      { not_waiting := waitsAt_setLock_none hNone fun t i _ => hRel.not_waiting t i
        marks_nodup := (nodup_cons.mp hRel.marks_nodup).2
        marked := ?_
        counted := ?_
        unmarked := ?_
        all := fun hAll t i hCounted => hRel.all hAll t i ((hCounts t i).mp hCounted) }
    · intro x hx i
      have hne : x.1 ≠ mark.1 := fun hEq => hTag (hEq ▸ mem_map_of_mem hx)
      rw [hElse x.1 hne, hCounts]
      exact hRel.marked x (mem_cons_of_mem mark hx) i
    · intro t i hCounted
      rw [hCounts] at hCounted
      by_cases ht : t = mark.1
      · rw [ht] at hCounted ⊢
        exact (hVisited i).mpr hCounted
      · exact (hElse t ht i).mpr (hRel.counted t i hCounted)
    · intro t hMem i hHeld
      rw [hCounts]
      by_cases ht : t = mark.1
      · rw [ht] at hHeld ⊢
        exact (hVisited i).mp hHeld
      · refine hRel.unmarked t ?_ i ((hElse t ht i).mp hHeld)
        rw [map_cons, mem_cons, not_or]
        exact ⟨ht, hMem⟩

/-- The `PROCLOCK`s of a partition, one after the other. -/
theorem releaseMarked_spec (p : Nat) (allLocks : Bool) (marks rest : List (Tag × LockMask)) :
    ∀ s : LockState Tag, Releasing lmt hashcode p allLocks (marks ++ rest) s →
      Releasing lmt hashcode p allLocks rest (releaseMarked lmt p allLocks s marks) ∧
      ((releaseMarked lmt p allLocks s marks).procs p).locals = (s.procs p).locals := by
  induction marks with
  | nil =>
    intro s h
    exact ⟨h, rfl⟩
  | cons mark marks ih =>
    intro s h
    obtain ⟨lock', ws, hResult, h', hLocals⟩ := releaseProcLock_step h
    have hNext : releaseMarked lmt p allLocks s (mark :: marks) =
        releaseMarked lmt p allLocks (s.setLock p mark.1 lock' ws) marks := by
      rw [releaseMarked, hResult]
    rw [hNext, ← hLocals]
    exact ih _ h'

theorem releasePartition_inv (h : LockInv lmt hashcode s) {partition : Nat}
    (hAt : (s.procs p).phase = .releasing allLocks partition marks) :
    LockInv lmt hashcode (releasePartition lmt hashcode s p allLocks partition marks) := by
  have hOwn := h.procs p
  have hPhase := hOwn.phase_ok
  rw [hAt] at hPhase
  obtain ⟨hRel, hLater⟩ := hPhase
  have hSplit : (marks.filter (fun mark => lockHashPartition hashcode mark.1 = partition) ++
      marks.filter (fun mark => lockHashPartition hashcode mark.1 ≠ partition)).Perm marks := by
    have hPerm := filter_append_perm
      (fun mark : Tag × LockMask => decide (lockHashPartition hashcode mark.1 = partition)) marks
    simpa using hPerm
  obtain ⟨⟨hOthers, hLinks, hRest⟩, hLocals⟩ := releaseMarked_spec p allLocks _ _ s
    ⟨h.othersOk p, hOwn.links, hRel.perm hSplit.symm⟩
  refine hOthers.finish (hLocals ▸ hOwn.locals_ok) hLinks ?_
  split_ifs with hMore
  · refine ⟨hRest.sameLocals rfl, fun mark hMark => ?_⟩
    rw [mem_filter, decide_eq_true_eq] at hMark
    have hLe := hLater mark hMark.1
    omega
  · -- after the last partition nothing is left to release
    have hDone : marks.filter (fun mark => lockHashPartition hashcode mark.1 ≠ partition) = [] := by
      rw [filter_eq_nil_iff]
      intro mark hMark
      have hLe := hLater mark hMark
      have hLt : lockHashPartition hashcode mark.1 < numLockPartitions := mod_lt _ (by decide)
      rw [decide_eq_true_eq]
      omega
    rw [hDone] at hRest
    exact ⟨fun t i => ⟨hRest.counted t i, hRest.unmarked t (by simp) i⟩, hRest.not_waiting⟩

/-! ## Every step, and every run -/

theorem step_inv (h : LockInv lmt hashcode s) (e : LockEvent Tag) :
    LockInv lmt hashcode (step lmt hashcode s e) := by
  cases e with
  | acquire p tag m owner dontWait =>
    rw [step]
    split
    next hRun => exact lockAcquire_inv h hRun tag m owner dontWait
    next => exact h
  | wake p =>
    rw [step]
    split
    next tag m owner hSleep =>
      split_ifs with hStatus
      · exact h
      · exact endSleep_inv h hSleep hStatus
    next => exact h
  | cancel p =>
    rw [step]
    split
    next tag m owner hSleep =>
      have hIff := (h.procs p).onQueue_iff_waiting hSleep
      split_ifs with hQueued
      · obtain ⟨hInv, hSleep', hError⟩ := leaveQueue_inv h hSleep hQueued
        exact endSleep_inv hInv hSleep' (by rw [hError]; decide)
      · exact endSleep_inv h hSleep fun hStatus => hQueued (hIff.mpr hStatus)
    next => exact h
  | deadlock p =>
    rw [step]
    split
    next tag m owner hSleep =>
      split_ifs with hQueued
      · exact (leaveQueue_inv h hSleep hQueued).1
      · exact h
    next => exact h
  | release p tag m owner =>
    rw [step]
    split
    next hRun => exact lockRelease_inv h hRun tag m owner
    next => exact h
  | releaseAll p allLocks =>
    rw [step]
    split
    next hRun => exact markReleases_inv h hRun allLocks
    next => exact h
  | releasePartition p =>
    rw [step]
    split
    next allLocks partition marks hAt => exact releasePartition_inv h hAt
    next => exact h

/-- What the shared state of one object says, and that nobody waits in vain. -/
structure LockOk (lmt : LockMethod) (lock : Lock) : Prop where
  compatible : ∀ p q m n, p ≠ q → Holds lock p m → Holds lock q n → ¬ Conflicts lmt m n
  granted : ∀ m, lock.granted m = Set.ncard {p | Holds lock p m}
  requested : ∀ m, lock.requested m = lock.granted m + Set.ncard {p | Waits lock p m}
  grantMask : ∀ m, lock.grantMask.getLsbD m = true ↔ ∃ p, Holds lock p m
  waitMask : ∀ m, lock.waitMask.getLsbD m = true ↔ ∃ p, Waits lock p m
  blocked : ∀ ahead w behind, lock.waitProcs = ahead ++ w :: behind → Blocked lmt lock ahead w

/-- Counting in a list without repetitions is counting in a set. -/
theorem ncard_eq_countP {α : Type} {f : α → Nat} {l : List α} (h : (l.map f).Nodup) (P : α → Bool)
    {S : Set Nat} (hS : ∀ p, p ∈ S ↔ ∃ x, (x ∈ l ∧ P x) ∧ f x = p) : S.ncard = l.countP P := by
  have hSet : S = ((l.filter P).map f).toFinset := by
    ext p
    simp only [hS, Finset.mem_coe, mem_toFinset, mem_map, mem_filter]
  have hNodup : ((l.filter P).map f).Nodup :=
    List.Nodup.sublist (List.Sublist.map _ filter_sublist) h
  rw [hSet, Set.ncard_coe_finset, toFinset_card_of_nodup hNodup, length_map,
    countP_eq_length_filter]

theorem ncard_holds (h : UniqueProcs lock) (m : Nat) :
    Set.ncard {p | Holds lock p m} = holders lock m := by
  refine ncard_eq_countP h _ fun p => ?_
  rw [Set.mem_ofPred_eq, holds_iff h]
  exact exists_congr fun pl => by rw [and_assoc, and_comm (a := pl.proc = p)]

theorem ncard_waits (h : (lock.waitProcs.map Waiter.proc).Nodup) (m : Nat) :
    Set.ncard {p | Waits lock p m} = waiters lock m := by
  refine ncard_eq_countP h _ fun p => ?_
  simp only [Set.mem_ofPred_eq, Waits, beq_iff_eq, and_assoc, and_comm]

theorem Safe.lockOk (h : Safe lmt lock) : LockOk lmt lock where
  compatible := h.compatible
  granted := fun m => by rw [ncard_holds h.unique, h.granted_eq]
  requested := fun m => by rw [ncard_waits h.queue_nodup, h.requested_eq]
  grantMask := fun m => by rw [h.grantMask_iff, holders_pos_iff h.unique]
  waitMask := fun m => by rw [h.waitMask_iff, waiters_pos_iff]
  blocked := by
    intro ahead w behind hQueue
    have hAll := h.blocked
    rw [hQueue, allBlocked_append] at hAll
    exact hAll.2.1

/-- **The lock table is safe, and no wakeup is missed.**  In every state of every run of
any number of processes on any objects, for every lock method. -/
theorem lock_table_safe (lmt : LockMethod) (hashcode : Tag → Nat) (es : List (LockEvent Tag)) :
    ∀ s ∈ states (step lmt hashcode) LockState.initial es, ∀ tag, LockOk lmt (s.locks tag) := by
  intro s hs tag
  have hInv := invariant_of_steps (I := LockInv lmt hashcode) (fun s e h => step_inv h e) es
    LockState.initial (initial_inv lmt hashcode) s hs
  exact (hInv.safe tag).lockOk

/-- A method with one mode, which conflicts with itself. -/
def exclusiveMethod : LockMethod where
  numLockModes := 1
  conflictTab := fun _ => lockbitOn 1
  numLockModes_lt := by decide
  symmetric := fun i j h1 h2 h3 h4 => by rw [show i = j by omega]

/-- Process 2 sleeps behind process 1, and has the lock once process 1 releases it. -/
def handOver : List (LockEvent Nat) :=
  [.acquire 1 0 1 none false, .acquire 2 0 1 none false, .release 1 0 1 none]

theorem lock_table_safe_handOver :
    ((handOver.foldl (step exclusiveMethod id) LockState.initial).locks 0).holdMask 2 =
        lockbitOn 1 ∧
      ∀ tag, LockOk exclusiveMethod
        ((handOver.foldl (step exclusiveMethod id) LockState.initial).locks tag) :=
  ⟨by decide, lock_table_safe exclusiveMethod id handOver _ (foldl_mem_states _ _)⟩

/-- A process waits for one lock at most, has links to all its locks, and while it runs its private
table counts exactly those that it holds. -/
theorem private_tables_agree (lmt : LockMethod) (hashcode : Tag → Nat) (es : List (LockEvent Tag)) :
    ∀ s ∈ states (step lmt hashcode) LockState.initial es, ∀ p,
      (∀ tag m tag' m', waitsAt s p tag m → waitsAt s p tag' m' → tag' = tag ∧ m' = m) ∧
      (∀ tag m, holdsAt s p tag m ∨ waitsAt s p tag m → tag ∈ (s.procs p).myProcLocks) ∧
      ((s.procs p).phase = .running → ∀ tag m, Counts (s.procs p) tag m ↔ holdsAt s p tag m) := by
  intro s hs p
  have hInv := invariant_of_steps (I := LockInv lmt hashcode) (fun s e h => step_inv h e) es
    LockState.initial (initial_inv lmt hashcode) s hs
  have hPhase := (hInv.procs p).phase_ok
  refine ⟨?_, (hInv.procs p).linked, fun hAt => (hAt ▸ hPhase).1⟩
  intro tag m tag' m' hWaits hWaits'
  cases hAt : (s.procs p).phase with
  | running => exact absurd hWaits ((hAt ▸ hPhase).2 tag m)
  | sleeping tag₀ m₀ owner =>
    rw [hAt] at hPhase
    obtain ⟨⟨rfl, rfl⟩, -⟩ := (hPhase.2.2.2.1 tag m).mp hWaits
    exact ((hPhase.2.2.2.1 tag' m').mp hWaits').1
  | releasing allLocks partition marks =>
    exact absurd hWaits ((hAt ▸ hPhase).1.not_waiting tag m)

theorem private_tables_agree_handOver :
    let s := (handOver.take 2).foldl (step exclusiveMethod id) LockState.initial
    Counts (s.procs 1) 0 1 ∧ holdsAt s 1 0 1 :=
  ⟨one_pos, ((private_tables_agree exclusiveMethod id (handOver.take 2) _
    (foldl_mem_states _ _) 1).2.2 rfl 0 1).mp one_pos⟩

end PgTuning.Lmgr
