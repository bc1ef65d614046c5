import Mathlib.Algebra.Order.BigOperators.Group.List
import Mathlib.Algebra.Order.Ring.Nat
import PgTuning.Lib.Run
import PgTuning.Storage.LockProcs
import PgTuning.Storage.LockRoutines

/-!
# Runs of the lock manager

A process knows what it holds: outside of a wait and of `LockReleaseAll` its local table counts
exactly the modes that the shared table says it holds. So the test for a lock that is held already,
and the release of a mode, touch the shared table only when they should. Together with `Safe` locks
this is an invariant of every interleaving of critical sections.
-/

namespace PgTuning.Lmgr

open PgTuning.Lib List Function Nat Prod

/-! ## The local table -/

/-- The total of a local lock is the sum of the counts of its owners, which are not
zero. -/
structure LocalOk (locallock : LocalLock) : Prop where
  total : locallock.nLocks = (locallock.lockOwners.map snd).sum
  pos : ∀ o ∈ locallock.lockOwners, 0 < o.2

namespace LocalLock

theorem ok_none : LocalOk LocalLock.none := ⟨rfl, fun o ho => by cases ho⟩

theorem sum_countOwner (owner : Owner) (os : List (Owner × Nat)) :
    ((countOwner owner os).map snd).sum = (os.map snd).sum + 1 := by
  induction os with
  | nil => rfl
  | cons o os ih =>
    rw [countOwner]
    split_ifs
    · simp only [map_cons, sum_cons]
      omega
    · simp only [map_cons, sum_cons]
      omega

variable {os : List (Owner × Nat)} {owner : Owner}

theorem pos_countOwner (h : ∀ o ∈ os, 0 < o.2) : ∀ o ∈ countOwner owner os, 0 < o.2 := by
  induction os with
  | nil => exact forall_mem_singleton.mpr one_pos
  | cons o os ih =>
    obtain ⟨hHead, hTail⟩ := forall_mem_cons.mp h
    rw [countOwner]
    split_ifs
    · exact forall_mem_cons.mpr ⟨succ_pos _, hTail⟩
    · exact forall_mem_cons.mpr ⟨hHead, ih hTail⟩

theorem sum_uncountOwner (h : ∀ o ∈ os, 0 < o.2) (hOwner : ∃ o ∈ os, o.1 = owner) :
    (os.map snd).sum = ((uncountOwner owner os).map snd).sum + 1 := by
  induction os with
  | nil =>
    obtain ⟨o, ho, -⟩ := hOwner
    cases ho
  | cons o os ih =>
    have hPos := h o mem_cons_self
    rw [uncountOwner]
    split_ifs with hEq hLast
    · simp only [map_cons, sum_cons]
      omega
    · simp only [map_cons, sum_cons]
      omega
    · obtain ⟨x, hx, hxo⟩ := hOwner
      have hTail : x ∈ os := (mem_cons.mp hx).resolve_left fun hHead => hEq (hHead ▸ hxo)
      simp only [map_cons, sum_cons]
      rw [ih (fun y hy => h y (mem_cons_of_mem o hy)) ⟨x, hTail, hxo⟩]
      omega

theorem pos_uncountOwner (h : ∀ o ∈ os, 0 < o.2) : ∀ o ∈ uncountOwner owner os, 0 < o.2 := by
  induction os with
  | nil => exact h
  | cons o os ih =>
    obtain ⟨hHead, hTail⟩ := forall_mem_cons.mp h
    rw [uncountOwner]
    split_ifs with hEq hLast
    · exact hTail
    · exact forall_mem_cons.mpr ⟨pos_of_ne_zero hLast, hTail⟩
    · exact forall_mem_cons.mpr ⟨hHead, ih hTail⟩

variable {locallock : LocalLock}

theorem ok_grantLockLocal (h : LocalOk locallock) (owner : Owner) :
    LocalOk (locallock.grantLockLocal owner) where
  total := by
    rw [grantLockLocal, sum_countOwner, ← h.total]
  pos := pos_countOwner h.pos

theorem ok_releaseLocal (h : LocalOk locallock) (hOwner : ∃ o ∈ locallock.lockOwners, o.1 = owner) :
    LocalOk (locallock.releaseLocal owner) where
  total := by
    have hSum := sum_uncountOwner h.pos hOwner
    have hTotal := h.total
    rw [releaseLocal]
    dsimp only
    omega
  pos := pos_uncountOwner h.pos

theorem ownerLocks_le (h : LocalOk locallock) (owner : Owner) :
    locallock.ownerLocks owner ≤ locallock.nLocks := by
  rw [ownerLocks, h.total]
  cases hFind : locallock.lockOwners.find? fun o => o.1 == owner with
  | none => exact zero_le _
  | some o =>
    exact le_sum_of_mem (mem_map_of_mem (mem_of_find?_eq_some hFind))

theorem ok_afterReleaseAll (locallock : LocalLock) (allLocks : Bool) :
    LocalOk (locallock.afterReleaseAll allLocks) := by
  rw [afterReleaseAll]
  split_ifs with hKeep
  · rw [keepsSession, Bool.and_eq_true, decide_eq_true_eq] at hKeep
    exact ⟨by simp, forall_mem_singleton.mpr hKeep.2⟩
  · exact ok_none

/-- What is left after the first loop of `LockReleaseAll` are the kept session locks. -/
theorem afterReleaseAll_pos_iff (locallock : LocalLock) (allLocks : Bool) :
    0 < (locallock.afterReleaseAll allLocks).nLocks ↔ locallock.keepsSession allLocks := by
  rw [afterReleaseAll]
  split_ifs with hKeep
  · refine iff_of_true ?_ hKeep
    rw [keepsSession, Bool.and_eq_true, decide_eq_true_eq] at hKeep
    exact hKeep.2
  · exact iff_of_false (lt_irrefl 0) hKeep

theorem pos_of_keepsSession (h : LocalOk locallock) {allLocks : Bool}
    (hKeep : locallock.keepsSession allLocks) : 0 < locallock.nLocks := by
  rw [keepsSession, Bool.and_eq_true, decide_eq_true_eq] at hKeep
  exact lt_of_lt_of_le hKeep.2 (ownerLocks_le h Option.none)

end LocalLock

/-! ## What a process knows -/

variable {Tag : Type}

/-- The process counts the mode as held in its local table. -/
def Counts (pg : PGProc Tag) (tag : Tag) (m : Nat) : Prop := 0 < (pg.locals tag m).nLocks

/-- The second loop of `LockReleaseAll`, with `marks` still to be visited: the marked
modes are exactly those held and no longer counted. -/
structure ReleaseOk (hold wait : Tag → Nat → Prop) (pg : PGProc Tag) (allLocks : Bool)
    (marks : List (Tag × LockMask)) : Prop where
  not_waiting : ∀ tag m, ¬ wait tag m
  marks_nodup : (marks.map fst).Nodup
  marked : ∀ mark ∈ marks, ∀ m,
    mark.2.getLsbD m = true ↔ hold mark.1 m ∧ ¬ Counts pg mark.1 m
  counted : ∀ tag m, Counts pg tag m → hold tag m
  unmarked : ∀ tag, tag ∉ marks.map fst → ∀ m, hold tag m → Counts pg tag m
  all : allLocks = true → ∀ tag m, ¬ Counts pg tag m

/-- What a process knows in each of its phases, given what it holds and waits for. -/
def PhaseOk (lmt : LockMethod) (hashcode : Tag → Nat) (hold wait : Tag → Nat → Prop)
    (pg : PGProc Tag) : Phase Tag → Prop
  | .running => (∀ tag m, Counts pg tag m ↔ hold tag m) ∧ ∀ tag m, ¬ wait tag m
  | .sleeping tag₀ m₀ _ =>
    IsMode lmt m₀ ∧ ¬ Counts pg tag₀ m₀ ∧
      (∀ tag m, ¬ (tag = tag₀ ∧ m = m₀) → (Counts pg tag m ↔ hold tag m)) ∧
      (∀ tag m, wait tag m ↔ (tag = tag₀ ∧ m = m₀) ∧ pg.waitStatus = .waiting) ∧
      (hold tag₀ m₀ ↔ pg.waitStatus = .ok)
  | .releasing allLocks partition marks =>
    ReleaseOk hold wait pg allLocks marks ∧
      ∀ mark ∈ marks, partition ≤ lockHashPartition hashcode mark.1

/-- The private state of a process agrees with what it holds and waits for. -/
structure ProcOk (lmt : LockMethod) (hashcode : Tag → Nat) (hold wait : Tag → Nat → Prop)
    (pg : PGProc Tag) : Prop where
  locals_ok : ∀ tag m, LocalOk (pg.locals tag m)
  links_nodup : pg.myProcLocks.Nodup
  linked : ∀ tag m, hold tag m ∨ wait tag m → tag ∈ pg.myProcLocks
  phase_ok : PhaseOk lmt hashcode hold wait pg pg.phase

variable (s : LockState Tag)

/-- What a process holds, object by object. -/
def holdsAt (p : Nat) (tag : Tag) (m : Nat) : Prop := Holds (s.locks tag) p m

def waitsAt (p : Nat) (tag : Tag) (m : Nat) : Prop := Waits (s.locks tag) p m

section Invariant

variable (lmt : LockMethod) (hashcode : Tag → Nat)

/-- The process agrees with the shared table. -/
def ProcInv (s : LockState Tag) (p : Nat) : Prop :=
  ProcOk lmt hashcode (holdsAt s p) (waitsAt s p) (s.procs p)

/-- All locks are safe, and all processes but `p` agree with the shared table. -/
structure OthersOk (s : LockState Tag) (p : Nat) : Prop where
  safe : ∀ tag, Safe lmt (s.locks tag)
  others : ∀ q, q ≠ p → ProcInv lmt hashcode s q

structure LockInv (s : LockState Tag) : Prop where
  safe : ∀ tag, Safe lmt (s.locks tag)
  procs : ∀ p, ProcInv lmt hashcode s p

end Invariant

variable {lmt : LockMethod} {hashcode : Tag → Nat} {s : LockState Tag} {p q m : Nat} {tag : Tag}

theorem LockInv.othersOk (h : LockInv lmt hashcode s) (p : Nat) : OthersOk lmt hashcode s p :=
  ⟨h.safe, fun q _ => h.procs q⟩

theorem OthersOk.lockInv (h : OthersOk lmt hashcode s p) (hOwn : ProcInv lmt hashcode s p) :
    LockInv lmt hashcode s := by
  refine ⟨h.safe, fun q => ?_⟩
  by_cases hq : q = p
  · rw [hq]
    exact hOwn
  · exact h.others q hq

/-- The private state of `p` is nobody else's business. -/
theorem OthersOk.setProc (h : OthersOk lmt hashcode s p) (pg : PGProc Tag) :
    OthersOk lmt hashcode (s.setProc p pg) p := by
  refine ⟨h.safe, fun q hq => ?_⟩
  have hSame : (s.setProc p pg).procs q = s.procs q := update_of_ne hq _ _
  unfold ProcInv
  rw [hSame]
  exact h.others q hq

theorem setProc_self (p : Nat) (pg : PGProc Tag) :
    (s.setProc p pg).procs p = pg := update_self _ _ _

variable {pg : PGProc Tag} {owner : Owner} {ws : List Nat} {lock' lock : Lock}

/-- A process that is woken holds what it waited for. -/
theorem ProcOk.woken {hold wait hold' wait' : Tag → Nat → Prop}
    (h : ProcOk lmt hashcode hold wait pg) (hWait : wait tag m)
    (hHold' : ∀ t i, hold' t i ↔ hold t i ∨ (t = tag ∧ wait t i))
    (hWait' : ∀ t i, wait' t i ↔ wait t i ∧ t ≠ tag) :
    ProcOk lmt hashcode hold' wait' { pg with waitStatus := .ok } := by
  have hPhase := h.phase_ok
  cases hAt : pg.phase with
  | running =>
    rw [hAt] at hPhase
    exact absurd hWait (hPhase.2 tag m)
  | releasing allLocks partition marks =>
    rw [hAt] at hPhase
    exact absurd hWait (hPhase.1.not_waiting tag m)
  | sleeping tag₀ m₀ owner =>
    rw [hAt] at hPhase
    obtain ⟨hMode, hNot, hCounts, hWaits, -⟩ := hPhase
    obtain ⟨⟨rfl, rfl⟩, hStatus⟩ := (hWaits tag m).mp hWait
    refine ⟨h.locals_ok, h.links_nodup, ?_, ?_⟩
    · rintro t i (hHeld | hWaiting)
      · rcases (hHold' t i).mp hHeld with hOld | ⟨-, hOld⟩
        · exact h.linked t i (Or.inl hOld)
        · exact h.linked t i (Or.inr hOld)
      · exact h.linked t i (Or.inr ((hWait' t i).mp hWaiting).1)
    · refine ⟨hMode, hNot, fun t i hne => ?_, fun t i => ?_, ?_⟩
      · have hSame : hold' t i ↔ hold t i := by
          rw [hHold', hWaits]
          exact or_iff_left fun hBoth => hne hBoth.2.1
        rw [hSame]
        exact hCounts t i hne
      · rw [hWait', hWaits]
        constructor
        · rintro ⟨⟨hEq, -⟩, hne⟩
          exact absurd hEq.1 hne
        · rintro ⟨-, hOk⟩
          cases hOk
      · exact iff_of_true ((hHold' tag m).mpr (Or.inr ⟨rfl, hWait⟩)) rfl

/-- A list of all the `PROCLOCK`s of a process that matter. -/
structure LinksOk (s : LockState Tag) (p : Nat) (links : List Tag) : Prop where
  nodup : links.Nodup
  linked : ∀ tag m, holdsAt s p tag m ∨ waitsAt s p tag m → tag ∈ links

theorem ProcInv.links (h : ProcInv lmt hashcode s p) : LinksOk s p (s.procs p).myProcLocks :=
  ⟨h.links_nodup, h.linked⟩

/-- The calling process after its critical section, and a change of its private state. -/
theorem OthersOk.finish (h : OthersOk lmt hashcode s p)
    (hLocals : ∀ t i, LocalOk (pg.locals t i)) (hLinks : LinksOk s p pg.myProcLocks)
    (hPhase : PhaseOk lmt hashcode (holdsAt s p) (waitsAt s p) pg pg.phase) :
    LockInv lmt hashcode (s.setProc p pg) := by
  refine (h.setProc pg).lockInv ?_
  unfold ProcInv
  rw [setProc_self]
  exact ⟨hLocals, hLinks.nodup, hLinks.linked, hPhase⟩

theorem OthersOk.run (h : OthersOk lmt hashcode s p) (hRun : pg.phase = .running)
    (hLocals : ∀ t i, LocalOk (pg.locals t i)) (hLinks : LinksOk s p pg.myProcLocks)
    (hCounts : ∀ t i, Counts pg t i ↔ holdsAt s p t i) (hNoWait : ∀ t i, ¬ waitsAt s p t i) :
    LockInv lmt hashcode (s.setProc p pg) := by
  refine h.finish hLocals hLinks ?_
  rw [hRun]
  exact ⟨hCounts, hNoWait⟩

theorem onQueue_iff (lock : Lock) (p : Nat) : lock.onQueue p ↔ ∃ i, Waits lock p i := by
  rw [Lock.onQueue, any_eq_true]
  constructor
  · rintro ⟨w, hw, hEq⟩
    exact ⟨w.waitLockMode, w, hw, beq_iff_eq.mp hEq, rfl⟩
  · rintro ⟨i, w, hw, hEq, -⟩
    exact ⟨w, hw, beq_iff_eq.mpr hEq⟩

/-- A sleeping process is on the queue of the lock it awaits exactly while its status
says so. -/
theorem ProcInv.onQueue_iff_waiting (h : ProcInv lmt hashcode s p)
    (hSleep : (s.procs p).phase = .sleeping tag m owner) :
    (s.locks tag).onQueue p ↔ (s.procs p).waitStatus = .waiting := by
  have hPhase := h.phase_ok
  rw [hSleep] at hPhase
  obtain ⟨-, -, -, hWaits, -⟩ := hPhase
  rw [onQueue_iff]
  constructor
  · rintro ⟨i, hi⟩
    exact ((hWaits tag i).mp hi).2
  · intro hStatus
    exact ⟨m, (hWaits tag m).mpr ⟨⟨rfl, rfl⟩, hStatus⟩⟩

/-! ## Storing a lock -/

variable [DecidableEq Tag]

theorem locks_setLock (p : Nat) (tag : Tag) (lock : Lock) (ws : List Nat)
    (t : Tag) : (s.setLock p tag lock ws).locks t = if t = tag then lock else s.locks t :=
  update_apply _ _ _ _

/-- What a process holds and waits for after `p` has worked on one object. -/
theorem holdsAt_setLock (p q : Nat) (tag : Tag) (lock : Lock)
    (ws : List Nat) (t : Tag) (i : Nat) : holdsAt (s.setLock p tag lock ws) q t i ↔
      if t = tag then Holds lock q i else holdsAt s q t i := by
  rw [holdsAt, locks_setLock]
  split_ifs <;> rfl

theorem waitsAt_setLock (p q : Nat) (tag : Tag) (lock : Lock)
    (ws : List Nat) (t : Tag) (i : Nat) : waitsAt (s.setLock p tag lock ws) q t i ↔
      if t = tag then Waits lock q i else waitsAt s q t i := by
  rw [waitsAt, locks_setLock]
  split_ifs <;> rfl

theorem procs_setLock_self (hp : p ∉ ws) (s : LockState Tag) (tag : Tag) (lock : Lock) :
    (s.setLock p tag lock ws).procs p = (s.procs p).linkProcLock tag (lock.hasProc p) := by
  simp [LockState.setLock, hp]

/-- A critical section of `p` on one object, seen by the others. -/
theorem OthersOk.setLock (h : OthersOk lmt hashcode s p) (hSafe : Safe lmt lock')
    (hEffect : Effect p (s.locks tag) lock' ws) :
    OthersOk lmt hashcode (s.setLock p tag lock' ws) p := by
  refine ⟨fun t => ?_, fun q hq => ?_⟩
  · rw [locks_setLock]
    split_ifs
    · exact hSafe
    · exact h.safe t
  · have hOld : ProcOk lmt hashcode (holdsAt s q) (waitsAt s q) (s.procs q) := h.others q hq
    have hHolds : ∀ t j, holdsAt (s.setLock p tag lock' ws) q t j ↔
        holdsAt s q t j ∨ (t = tag ∧ q ∈ ws) ∧ waitsAt s q t j := by
      intro t j
      rw [holdsAt_setLock, hEffect.holds_iff q j hq]
      split_ifs with ht
      · simp [holdsAt, waitsAt, ht]
      · simp [ht]
    have hWaits : ∀ t j, waitsAt (s.setLock p tag lock' ws) q t j ↔
        waitsAt s q t j ∧ ¬ (t = tag ∧ q ∈ ws) := by
      intro t j
      rw [waitsAt_setLock, hEffect.waits_iff q j hq]
      split_ifs with ht
      · simp [waitsAt, ht]
      · simp [ht]
    unfold ProcInv
    by_cases hWoken : q ∈ ws
    · have hProc : (s.setLock p tag lock' ws).procs q =
          { s.procs q with waitStatus := .ok } := by
        simp [LockState.setLock, hq, hWoken]
      obtain ⟨-, i, hi⟩ := hEffect.woken_waits q hWoken
      rw [hProc]
      exact hOld.woken hi (by simpa [hWoken] using hHolds) (by simpa [hWoken] using hWaits)
    · have hProc : (s.setLock p tag lock' ws).procs q = s.procs q := by
        simp [LockState.setLock, hq, hWoken]
      have hHolds' : holdsAt (s.setLock p tag lock' ws) q = holdsAt s q := by
        funext t j
        simpa [hWoken] using hHolds t j
      have hWaits' : waitsAt (s.setLock p tag lock' ws) q = waitsAt s q := by
        funext t j
        simpa [hWoken] using hWaits t j
      rw [hProc, hHolds', hWaits']
      exact hOld

theorem not_mem_woken (h : Effect p lock lock' ws) : p ∉ ws :=
  fun hp => (h.woken_waits p hp).1 rfl

theorem hasProc_of_holds_or_waits (h : Safe lmt lock)
    (hOr : Holds lock p m ∨ Waits lock p m) : lock.hasProc p := by
  rcases hOr with hHolds | ⟨w, hw, rfl, -⟩
  · exact hasProc_of_holds hHolds
  · exact (h.queued w hw).1

theorem LinksOk.setLock (h : LinksOk s p pg.myProcLocks) (tag : Tag)
    (hSafe : Safe lmt lock') (ws : List Nat) :
    LinksOk (s.setLock p tag lock' ws) p (pg.linkProcLock tag (lock'.hasProc p)).myProcLocks := by
  have hOther : ∀ t, t ≠ tag → ∀ i, holdsAt (s.setLock p tag lock' ws) p t i ∨
      waitsAt (s.setLock p tag lock' ws) p t i → t ∈ pg.myProcLocks := by
    intro t ht i hOr
    rw [holdsAt_setLock, waitsAt_setLock, if_neg ht, if_neg ht] at hOr
    exact h.linked t i hOr
  unfold PGProc.linkProcLock
  split_ifs with hProc hMem
  · refine ⟨h.nodup, fun t i hOr => ?_⟩
    by_cases ht : t = tag
    · rw [ht]
      exact hMem
    · exact hOther t ht i hOr
  · refine ⟨?_, fun t i hOr => ?_⟩
    · rw [nodup_append]
      refine ⟨h.nodup, nodup_singleton tag, ?_⟩
      intro a ha b hb hEq
      rw [mem_singleton] at hb
      have hTag : a = tag := hEq.trans hb
      exact hMem (hTag ▸ ha)
    · by_cases ht : t = tag
      · rw [ht]
        exact mem_append_right _ (mem_singleton.mpr rfl)
      · exact mem_append_left _ (hOther t ht i hOr)
  · refine ⟨h.nodup.sublist filter_sublist, fun t i hOr => ?_⟩
    by_cases ht : t = tag
    · -- without a `PROCLOCK` the process neither holds nor waits
      rw [holdsAt_setLock, waitsAt_setLock, if_pos ht, if_pos ht] at hOr
      exact absurd (hasProc_of_holds_or_waits hSafe hOr) hProc
    · exact mem_filter.mpr ⟨hOther t ht i hOr, decide_eq_true ht⟩

/-! ## Local counts -/

theorem counts_setLocal (pg : PGProc Tag) (tag : Tag) (m : Nat) (locallock : LocalLock) (t : Tag)
    (i : Nat) : Counts (pg.setLocal tag m locallock) t i ↔
      if t = tag ∧ i = m then 0 < locallock.nLocks else Counts pg t i := by
  unfold Counts PGProc.setLocal
  dsimp only
  by_cases ht : t = tag
  · subst ht
    by_cases hi : i = m
    · subst hi
      simp
    · simp [hi]
  · rw [update_of_ne ht]
    simp [ht]

theorem locals_setLocal_ok (h : ∀ t i, LocalOk (pg.locals t i)) (tag : Tag) (m : Nat)
    {locallock : LocalLock} (hNew : LocalOk locallock) (t : Tag) (i : Nat) :
    LocalOk ((pg.setLocal tag m locallock).locals t i) := by
  unfold PGProc.setLocal
  dsimp only
  rw [update_apply]
  split_ifs with ht
  · rw [update_apply]
    split_ifs
    · exact hNew
    · exact h tag i
  · exact h t i

theorem counts_grantLocal (pg : PGProc Tag) (tag : Tag) (m : Nat) (owner : Owner) (t : Tag)
    (i : Nat) : Counts (pg.grantLocal tag m owner) t i ↔ Counts pg t i ∨ (t = tag ∧ i = m) := by
  rw [PGProc.grantLocal, counts_setLocal]
  split_ifs with hSame
  · exact iff_of_true (succ_pos _) (Or.inr hSame)
  · exact (or_iff_left hSame).symm

theorem locals_grantLocal_ok (h : ∀ t i, LocalOk (pg.locals t i)) (tag : Tag) (m : Nat)
    (owner : Owner) (t : Tag) (i : Nat) : LocalOk ((pg.grantLocal tag m owner).locals t i) :=
  locals_setLocal_ok h tag m (LocalLock.ok_grantLockLocal (h tag m) owner) t i

/-! ## `LockAcquire` -/

/-- Working on an object without a change to what `p` holds, and without a wait. -/
theorem holdsAt_setLock_same (hHolds : ∀ i, Holds lock p i ↔ Holds (s.locks tag) p i) :
    holdsAt (s.setLock p tag lock ws) p = holdsAt s p := by
  funext t i
  rw [eq_iff_iff, holdsAt_setLock]
  split_ifs with ht
  · rw [hHolds, ht, holdsAt]
  · exact Iff.rfl

theorem waitsAt_setLock_none (hNone : ∀ i, ¬ Waits lock p i)
    (hOther : ∀ t i, t ≠ tag → ¬ waitsAt s p t i) (t : Tag) (i : Nat) :
    ¬ waitsAt (s.setLock p tag lock ws) p t i := by
  rw [waitsAt_setLock]
  split_ifs with ht
  · exact hNone i
  · exact hOther t i ht

variable (h : LockInv lmt hashcode s)
include h

theorem lockAcquire_inv (hRun : (s.procs p).phase = .running) (tag : Tag) (m : Nat) (owner : Owner)
    (dontWait : Bool) : LockInv lmt hashcode (lockAcquire lmt s p tag m owner dontWait) := by
  have hOwn := h.procs p
  have hPhase := hOwn.phase_ok
  rw [hRun] at hPhase
  obtain ⟨hCounts, hNoWait⟩ := hPhase
  unfold lockAcquire
  split_ifs with hInvalid hHeld
  · exact h
  · -- the process holds the mode already: only the local count grows
    refine (h.othersOk p).run hRun (locals_grantLocal_ok hOwn.locals_ok tag m owner) hOwn.links
      (fun t i => ?_) hNoWait
    rw [counts_grantLocal, hCounts]
    refine or_iff_left_of_imp ?_
    rintro ⟨rfl, rfl⟩
    exact (hCounts t i).mp hHeld
  · have hMode : IsMode lmt m := by
      rw [not_or] at hInvalid
      exact ⟨Nat.one_le_iff_ne_zero.mpr hInvalid.1, Nat.le_of_not_lt hInvalid.2⟩
    have hNot : ¬ Holds (s.locks tag) p m := fun hHolds => hHeld ((hCounts tag m).mpr hHolds)
    obtain ⟨hSafe, hEffect, hPost⟩ :=
      lockAcquireShared_spec (h.safe tag) hMode hNot (fun i => hNoWait tag i) dontWait
    rcases hResult : lockAcquireShared lmt (s.locks tag) p m dontWait with ⟨lock', result, ws⟩
    rw [hResult] at hSafe hEffect hPost
    have hOthers := (h.othersOk p).setLock hSafe hEffect
    have hLinks := hOwn.links.setLock tag hSafe ws
    have hProc := procs_setLock_self (not_mem_woken hEffect) s tag lock'
    have hElsewhere : ∀ t i, t ≠ tag → ¬ waitsAt s p t i := fun t i _ => hNoWait t i
    -- a call that changes nothing for the process leaves it as it was
    have hSame : (∀ i, Holds lock' p i ↔ Holds (s.locks tag) p i) → (∀ i, ¬ Waits lock' p i) →
        ∀ status, LockInv lmt hashcode ((s.setLock p tag lock' ws).setProc p
          { (s.setLock p tag lock' ws).procs p with waitStatus := status }) := by
      intro hHolds hNone status
      rw [hProc]
      refine hOthers.run hRun hOwn.locals_ok hLinks ?_ (waitsAt_setLock_none hNone hElsewhere)
      rw [holdsAt_setLock_same hHolds]
      exact hCounts
    have hUnset : (s.setLock p tag lock' ws).setProc p
        { (s.setLock p tag lock' ws).procs p with
          waitStatus := ((s.setLock p tag lock' ws).procs p).waitStatus } =
        s.setLock p tag lock' ws := by
      simp [LockState.setProc]
    cases result with
    | alreadyHeld => exact absurd hPost id
    | notAvail =>
      have hInv := hSame hPost.1 hPost.2 ((s.setLock p tag lock' ws).procs p).waitStatus
      rw [hUnset] at hInv
      exact hInv
    | deadlock => exact hSame hPost.1 hPost.2 .error
    | ok =>
      dsimp only
      rw [hProc]
      refine hOthers.run hRun (locals_grantLocal_ok hOwn.locals_ok tag m owner) hLinks
        (fun t i => ?_) (waitsAt_setLock_none hPost.2 hElsewhere)
      have hOld : Counts ((s.procs p).linkProcLock tag (lock'.hasProc p)) t i ↔
          holdsAt s p t i := hCounts t i
      rw [counts_grantLocal, hOld, holdsAt_setLock]
      split_ifs with ht
      · rw [hPost.1 i, ht, holdsAt]
        simp
      · simp [ht]
    | sleeping =>
      dsimp only
      rw [hProc]
      refine hOthers.finish hOwn.locals_ok hLinks ?_
      refine ⟨hMode, hHeld, fun t i hne => ?_, fun t i => ?_, ?_⟩
      · rw [holdsAt_setLock_same hPost.1]
        exact hCounts t i
      · rw [waitsAt_setLock]
        split_ifs with ht
        · rw [hPost.2 i]
          simp [ht]
        · simp [ht, hNoWait t i]
      · rw [holdsAt_setLock, hPost.1 m]
        simp [hNot]

/-! ## The end of a wait -/

theorem endSleep_inv (hSleep : (s.procs p).phase = .sleeping tag m owner)
    (hStatus : (s.procs p).waitStatus ≠ .waiting) :
    LockInv lmt hashcode (endSleep s p tag m owner) := by
  have hOwn := h.procs p
  have hPhase := hOwn.phase_ok
  rw [hSleep] at hPhase
  obtain ⟨-, hNot, hCounts, hWaits, hHolds⟩ := hPhase
  have hNoWait : ∀ t i, ¬ waitsAt s p t i := fun t i hi => hStatus ((hWaits t i).mp hi).2
  unfold endSleep
  dsimp only
  cases hOk : (s.procs p).waitStatus with
  | waiting => exact absurd hOk hStatus
  | ok =>
    refine (h.othersOk p).run rfl (locals_grantLocal_ok hOwn.locals_ok tag m owner) hOwn.links
      (fun t i => ?_) hNoWait
    rw [counts_grantLocal]
    by_cases hSame : t = tag ∧ i = m
    · obtain ⟨rfl, rfl⟩ := hSame
      exact iff_of_true (Or.inr ⟨rfl, rfl⟩) (hHolds.mpr hOk)
    · rw [or_iff_left hSame]
      exact hCounts t i hSame
  | error =>
    refine (h.othersOk p).run rfl hOwn.locals_ok hOwn.links (fun t i => ?_) hNoWait
    by_cases hSame : t = tag ∧ i = m
    · obtain ⟨rfl, rfl⟩ := hSame
      refine iff_of_false hNot fun hHeld => ?_
      have hEq := hHolds.mp hHeld
      rw [hOk] at hEq
      cases hEq
    · exact hCounts t i hSame

theorem leaveQueue_inv (hSleep : (s.procs p).phase = .sleeping tag m owner)
    (hQueued : (s.locks tag).onQueue p) :
    LockInv lmt hashcode (leaveQueue lmt s p tag m) ∧
      ((leaveQueue lmt s p tag m).procs p).phase = .sleeping tag m owner ∧
      ((leaveQueue lmt s p tag m).procs p).waitStatus = .error := by
  have hOwn := h.procs p
  have hStatus := (hOwn.onQueue_iff_waiting hSleep).mp hQueued
  have hPhase := hOwn.phase_ok
  rw [hSleep] at hPhase
  obtain ⟨hMode, hNot, hCounts, hWaits, hHolds⟩ := hPhase
  have hWait : Waits (s.locks tag) p m := (hWaits tag m).mpr ⟨⟨rfl, rfl⟩, hStatus⟩
  obtain ⟨hSafe, hEffect, hSame, hNone⟩ := removeFromWaitQueue_spec (h.safe tag).toConsistent hWait
  unfold leaveQueue
  rcases hResult : removeFromWaitQueue lmt (s.locks tag) p m with ⟨lock', ws⟩
  rw [hResult] at hSafe hEffect hSame hNone
  have hOthers := (h.othersOk p).setLock hSafe hEffect
  have hLinks := hOwn.links.setLock tag hSafe ws
  have hProc := procs_setLock_self (not_mem_woken hEffect) s tag lock'
  have hPhase' : ((s.procs p).linkProcLock tag (lock'.hasProc p)).phase =
      .sleeping tag m owner := hSleep
  have hElsewhere : ∀ t i, t ≠ tag → ¬ waitsAt s p t i := by
    intro t i ht hi
    exact ht ((hWaits t i).mp hi).1.1
  dsimp only
  rw [hProc, setProc_self]
  refine ⟨hOthers.finish hOwn.locals_ok hLinks ?_, hPhase', rfl⟩
  rw [hPhase', holdsAt_setLock_same hSame]
  refine ⟨hMode, hNot, hCounts, fun t i => ?_, ?_⟩
  · refine iff_of_false (waitsAt_setLock_none hNone hElsewhere t i) ?_
    rintro ⟨-, hEq⟩
    cases hEq
  · rw [hHolds, hStatus]
    simp

/-! ## `LockRelease` -/

theorem lockRelease_inv (hRun : (s.procs p).phase = .running)
    (tag : Tag) (m : Nat) (owner : Owner) :
    LockInv lmt hashcode (lockRelease lmt s p tag m owner) := by
  have hOwn := h.procs p
  have hPhase := hOwn.phase_ok
  rw [hRun] at hPhase
  obtain ⟨hCounts, hNoWait⟩ := hPhase
  have hHeld : ((s.procs p).locals tag m).nLocks ≠ 0 → Holds (s.locks tag) p m := fun hCount =>
    (hCounts tag m).mp (pos_of_ne_zero hCount)
  unfold lockRelease
  dsimp only
  split_ifs with _ hZero hForeign hMore hBit
  · exact h
  · exact h
  · exact h
  · -- other holds of the same mode remain
    have hOwner : ∃ o ∈ ((s.procs p).locals tag m).lockOwners, o.1 = owner := by
      simpa using hForeign
    refine (h.othersOk p).run hRun (locals_setLocal_ok hOwn.locals_ok tag m
      (LocalLock.ok_releaseLocal (hOwn.locals_ok tag m) hOwner)) hOwn.links (fun t i => ?_) hNoWait
    rw [counts_setLocal]
    split_ifs with hSame
    · obtain ⟨rfl, rfl⟩ := hSame
      exact iff_of_true hMore (hHeld hZero)
    · exact hCounts t i
  · obtain ⟨hSafe, hEffect, hAfter, hNone⟩ :=
      unGrant_cleanUp_spec (h.safe tag) hBit (fun i => hNoWait tag i)
    rcases hUngrant : unGrantLock lmt (s.locks tag) m p with ⟨lock₁, needed⟩
    rw [hUngrant] at hSafe hEffect hAfter hNone
    rcases hResult : cleanUpLock lmt lock₁ p needed with ⟨lock', ws⟩
    rw [hResult] at hSafe hEffect hAfter hNone
    -- the private state may as well change after the shared one
    have hSwap : (s.setProc p ((s.procs p).setLocal tag m LocalLock.none)).setLock p tag lock' ws =
        (s.setLock p tag lock' ws).setProc p
          (((s.procs p).linkProcLock tag (lock'.hasProc p)).setLocal tag m LocalLock.none) := by
      have hp := not_mem_woken hEffect
      unfold LockState.setLock LockState.setProc
      congr 1
      funext q
      by_cases hq : q = p
      · subst hq
        simp [hp, PGProc.linkProcLock, PGProc.setLocal]
      · simp [hq]
    rw [hSwap]
    refine ((h.othersOk p).setLock hSafe hEffect).run hRun
      (locals_setLocal_ok hOwn.locals_ok tag m LocalLock.ok_none) (hOwn.links.setLock tag hSafe ws)
      (fun t i => ?_) (waitsAt_setLock_none hNone fun t i _ => hNoWait t i)
    have hOld : Counts ((s.procs p).linkProcLock tag (lock'.hasProc p)) t i ↔ holdsAt s p t i :=
      hCounts t i
    rw [counts_setLocal, hOld, holdsAt_setLock]
    by_cases ht : t = tag
    · subst ht
      by_cases hi : i = m
      · subst hi
        simp [hAfter, LocalLock.none]
      · simp [hAfter, hi, holdsAt]
    · simp [ht]
  · exact absurd (hHeld hZero) hBit

end PgTuning.Lmgr
