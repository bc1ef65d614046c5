import PgTuning.Storage.Lock

/-!
# Processes that use the lock manager

Each process has a `LOCALLOCK` table, which counts per resource owner how often the process holds a
mode, and the part of its `PGPROC` the lock manager reads. `step` is one critical section of one
process: what runs under the lock of a partition. A process that sleeps takes no other step.
-/

namespace PgTuning.Lmgr

/-- `ResourceOwner`; `none` is the `NULL` owner of session locks. -/
abbrev Owner := Option Nat

/-! ## The local table -/

/-- `LOCALLOCK`: how often the process holds a mode, in all and for each owner. One
with `nLocks = 0` and no owner stands for an entry that is not in the table. -/
structure LocalLock where
  nLocks : Nat
  lockOwners : List (Owner × Nat)
  deriving DecidableEq, Repr

namespace LocalLock

/-- What is left by `RemoveLocalLock`. -/
def none : LocalLock := ⟨0, []⟩

variable (locallock : LocalLock)

def ownerLocks (owner : Owner) : Nat :=
  match locallock.lockOwners.find? fun o => o.1 == owner with
  | some o => o.2
  | Option.none => 0

/-- Count one more lock for the owner in its slot, or in a new slot. -/
def countOwner (owner : Owner) : List (Owner × Nat) → List (Owner × Nat)
  | [] => [(owner, 1)]
  | o :: rest =>
    if o.1 = owner then (o.1, o.2 + 1) :: rest else o :: countOwner owner rest

/-- Count one lock less for the owner; a slot that becomes unused is dropped. -/
def uncountOwner (owner : Owner) : List (Owner × Nat) → List (Owner × Nat)
  | [] => []
  | o :: rest =>
    if o.1 = owner then if o.2 - 1 = 0 then rest else (o.1, o.2 - 1) :: rest
    else o :: uncountOwner owner rest

def grantLockLocal (owner : Owner) : LocalLock :=
  ⟨locallock.nLocks + 1, countOwner owner locallock.lockOwners⟩

/-- The counting in `LockRelease`. -/
def releaseLocal (owner : Owner) : LocalLock :=
  ⟨locallock.nLocks - 1, uncountOwner owner locallock.lockOwners⟩

/-- `LockReleaseAll` leaves the local lock in place, for its session locks. -/
def keepsSession (allLocks : Bool) : Bool :=
  !allLocks && decide (locallock.ownerLocks Option.none > 0)

/-- The local lock after the first loop of `LockReleaseAll`. -/
def afterReleaseAll (allLocks : Bool) : LocalLock :=
  if locallock.keepsSession allLocks then
    ⟨locallock.ownerLocks Option.none, [(Option.none, locallock.ownerLocks Option.none)]⟩
  else none

end LocalLock

/-! ## Processes -/

variable {Tag : Type} [DecidableEq Tag]

/-- What a process is doing. `sleeping` is `lockAwaited`, with `awaitedOwner`;
`releasing` is the second loop of `LockReleaseAll`, about to take the lock of a
partition, with the `releaseMask` of each of its `PROCLOCK`s not yet visited. -/
inductive Phase (Tag : Type) where
  | running
  | sleeping (tag : Tag) (lockmode : Nat) (owner : Owner)
  | releasing (allLocks : Bool) (partition : Nat) (marks : List (Tag × LockMask))

inductive WaitStatus where
  | ok
  | waiting
  | error
  deriving DecidableEq, Repr

/-- `PGPROC` and the private lock state of a process. -/
structure PGProc (Tag : Type) where
  locals : Tag → Nat → LocalLock
  myProcLocks : List Tag
  waitStatus : WaitStatus
  phase : Phase Tag

structure LockState (Tag : Type) where
  locks : Tag → Lock
  procs : Nat → PGProc Tag

/-- Nothing is locked, and every process runs. -/
def LockState.initial : LockState Tag where
  locks := fun _ => Lock.empty
  procs := fun _ => ⟨fun _ _ => LocalLock.none, [], .ok, .running⟩

namespace PGProc

def setLocal (pg : PGProc Tag) (tag : Tag) (lockmode : Nat) (locallock : LocalLock) :
    PGProc Tag :=
  { pg with
    locals := Function.update pg.locals tag
      (Function.update (pg.locals tag) lockmode locallock) }

/-- `GrantLockLocal` on one local lock. -/
def grantLocal (pg : PGProc Tag) (tag : Tag) (lockmode : Nat) (owner : Owner) : PGProc Tag :=
  pg.setLocal tag lockmode ((pg.locals tag lockmode).grantLockLocal owner)

/-- The list `myProcLocks` after an operation on an object: the `PROCLOCK` of the
process is linked into it when it is created and unlinked when it is deleted. -/
def linkProcLock (pg : PGProc Tag) (tag : Tag) (linked : Bool) : PGProc Tag :=
  { pg with
    myProcLocks :=
      if linked then
        if tag ∈ pg.myProcLocks then pg.myProcLocks else pg.myProcLocks ++ [tag]
      else pg.myProcLocks.filter fun t => t ≠ tag }

end PGProc

namespace LockState

def setProc (s : LockState Tag) (proc : Nat) (pg : PGProc Tag) : LockState Tag :=
  { s with procs := Function.update s.procs proc pg }

/-- Store the lock a process has worked on: its `PROCLOCK` is linked or unlinked, and
the processes it woke have the status `STATUS_OK`. -/
def setLock (s : LockState Tag) (proc : Nat) (tag : Tag) (lock : Lock) (woken : List Nat) :
    LockState Tag where
  locks := Function.update s.locks tag lock
  procs := fun p =>
    let pg := if p = proc then (s.procs p).linkProcLock tag (lock.hasProc p) else s.procs p
    if p ∈ woken then { pg with waitStatus := .ok } else pg

end LockState

def numLockPartitions : Nat := 16

/-- The critical sections. `acquire` is `LockAcquire` for a resource owner or, with owner `none`, for
the session; `wake` is the end of `ProcSleep` in a process that has been woken, `cancel` is
`LockWaitCancel`, and `deadlock` is `CheckDeadLock` when the wait has to be given up; `releaseAll` is
the loop of `LockReleaseAll` over the local table, `releasePartition` its next turn over the
partitions. -/
inductive LockEvent (Tag : Type) where
  | acquire (proc : Nat) (tag : Tag) (lockmode : Nat) (owner : Owner) (dontWait : Bool)
  | wake (proc : Nat)
  | cancel (proc : Nat)
  | deadlock (proc : Nat)
  | release (proc : Nat) (tag : Tag) (lockmode : Nat) (owner : Owner)
  | releaseAll (proc : Nat) (allLocks : Bool)
  | releasePartition (proc : Nat)

variable (lmt : LockMethod) (hashcode : Tag → Nat)

def lockHashPartition (tag : Tag) : Nat := hashcode tag % numLockPartitions

def lockAcquire (s : LockState Tag) (proc : Nat) (tag : Tag) (lockmode : Nat) (owner : Owner)
    (dontWait : Bool) : LockState Tag :=
  if lockmode = 0 ∨ lockmode > lmt.numLockModes then s
  else if ((s.procs proc).locals tag lockmode).nLocks > 0 then
    s.setProc proc ((s.procs proc).grantLocal tag lockmode owner)
  else
    let (lock, result, woken) := lockAcquireShared lmt (s.locks tag) proc lockmode dontWait
    let s := s.setLock proc tag lock woken
    match result with
    | .ok => s.setProc proc ((s.procs proc).grantLocal tag lockmode owner)
    | .sleeping =>
      s.setProc proc { s.procs proc with
        waitStatus := .waiting
        phase := .sleeping tag lockmode owner }
    | .deadlock => s.setProc proc { s.procs proc with waitStatus := .error }
    | .notAvail => s
    | .alreadyHeld => s

/-- The end of `ProcSleep`, when `waitStatus` is no longer `STATUS_WAITING`; it is
also what `LockWaitCancel` does for a process that is off the queue. -/
def endSleep (s : LockState Tag) (proc : Nat) (tag : Tag) (lockmode : Nat) (owner : Owner) :
    LockState Tag :=
  let pg := { s.procs proc with phase := .running }
  match pg.waitStatus with
  | .ok => s.setProc proc (pg.grantLocal tag lockmode owner)
  | _ => s.setProc proc pg

/-- `RemoveFromWaitQueue` by the waiting process itself. -/
def leaveQueue (s : LockState Tag) (proc : Nat) (tag : Tag) (lockmode : Nat) : LockState Tag :=
  let (lock, woken) := removeFromWaitQueue lmt (s.locks tag) proc lockmode
  let s := s.setLock proc tag lock woken
  s.setProc proc { s.procs proc with waitStatus := .error }

def lockRelease (s : LockState Tag) (proc : Nat) (tag : Tag) (lockmode : Nat) (owner : Owner) :
    LockState Tag :=
  let locallock := (s.procs proc).locals tag lockmode
  if lockmode = 0 ∨ lockmode > lmt.numLockModes then s
  else if locallock.nLocks = 0 then s
  else if locallock.lockOwners.all fun o => o.1 ≠ owner then s
  else if locallock.nLocks - 1 > 0 then
    s.setProc proc ((s.procs proc).setLocal tag lockmode (locallock.releaseLocal owner))
  else
    let lock := s.locks tag
    let s' := s.setProc proc ((s.procs proc).setLocal tag lockmode LocalLock.none)
    if (lock.holdMask proc).getLsbD lockmode then
      let (lock, wakeupNeeded) := unGrantLock lmt lock lockmode proc
      let (lock, woken) := cleanUpLock lmt lock proc wakeupNeeded
      s'.setLock proc tag lock woken
    else s'

/-- The `releaseMask` the first loop of `LockReleaseAll` gives a `PROCLOCK`. -/
def releaseMark (pg : PGProc Tag) (allLocks : Bool) (tag : Tag) : LockMask :=
  lmt.modes.foldl (fun mask i =>
    if !(pg.locals tag i).keepsSession allLocks && decide ((pg.locals tag i).nLocks > 0) then
      mask ||| lockbitOn i
    else mask) 0

/-- The first loop of `LockReleaseAll`, over the local table. -/
def markReleases (s : LockState Tag) (proc : Nat) (allLocks : Bool) : LockState Tag :=
  let pg := s.procs proc
  s.setProc proc { pg with
    locals := fun tag lockmode => (pg.locals tag lockmode).afterReleaseAll allLocks
    phase := .releasing allLocks 0
      (pg.myProcLocks.map fun tag => (tag, releaseMark lmt pg allLocks tag)) }

/-- The loop of `LockReleaseAll` over the `PROCLOCK`s of a partition. -/
def releaseMarked (proc : Nat) (allLocks : Bool) (s : LockState Tag) :
    List (Tag × LockMask) → LockState Tag
  | [] => s
  | mark :: rest =>
    let (lock, woken) := releaseProcLock lmt (s.locks mark.1) proc allLocks mark.2
    releaseMarked proc allLocks (s.setLock proc mark.1 lock woken) rest

/-- One turn of `LockReleaseAll` over the partitions. -/
def releasePartition (s : LockState Tag) (proc : Nat) (allLocks : Bool) (partition : Nat)
    (marks : List (Tag × LockMask)) : LockState Tag :=
  let s := releaseMarked lmt proc allLocks s
    (marks.filter fun mark => lockHashPartition hashcode mark.1 = partition)
  let rest := marks.filter fun mark => lockHashPartition hashcode mark.1 ≠ partition
  s.setProc proc { s.procs proc with
    phase :=
      if partition + 1 < numLockPartitions then .releasing allLocks (partition + 1) rest
      else .running }

def step (s : LockState Tag) : LockEvent Tag → LockState Tag
  | .acquire proc tag lockmode owner dontWait =>
    match (s.procs proc).phase with
    | .running => lockAcquire lmt s proc tag lockmode owner dontWait
    | _ => s
  | .wake proc =>
    match (s.procs proc).phase with
    | .sleeping tag lockmode owner =>
      if (s.procs proc).waitStatus = .waiting then s
      else endSleep s proc tag lockmode owner
    | _ => s
  | .cancel proc =>
    match (s.procs proc).phase with
    | .sleeping tag lockmode owner =>
      if (s.locks tag).onQueue proc then
        endSleep (leaveQueue lmt s proc tag lockmode) proc tag lockmode owner
      else endSleep s proc tag lockmode owner
    | _ => s
  | .deadlock proc =>
    match (s.procs proc).phase with
    | .sleeping tag lockmode _ =>
      if (s.locks tag).onQueue proc then leaveQueue lmt s proc tag lockmode
      else s
    | _ => s
  | .release proc tag lockmode owner =>
    match (s.procs proc).phase with
    | .running => lockRelease lmt s proc tag lockmode owner
    | _ => s
  | .releaseAll proc allLocks =>
    match (s.procs proc).phase with
    | .running => markReleases lmt s proc allLocks
    | _ => s
  | .releasePartition proc =>
    match (s.procs proc).phase with
    | .releasing allLocks partition marks =>
      releasePartition lmt hashcode s proc allLocks partition marks
    | _ => s

end PgTuning.Lmgr
