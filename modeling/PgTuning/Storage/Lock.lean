import Mathlib.Data.List.Basic

/-!
# The lock manager

`lock.c` keeps, for every lockable object, a `LOCK` with counters of the granted and of all
requests, two masks of modes, the `PROCLOCK`s of its holders and the queue of its waiters; `proc.c`
puts a process to sleep in that queue and grants the lock to the waiters that can have it. A process
remembers in its own `LOCALLOCK` table how often it holds each mode.

These are the routines that run under the partition lock of one object; those that can wake
processes return whom they woke. A `LOCK` that nobody has requested is `Lock.empty`. The `PROCLOCK`s
of an object live inside its lock, and a waiter carries the fields of its `PGPROC` that belong to
the wait.
-/

namespace PgTuning.Lmgr

/-! ## Masks of lock modes -/

/-- `LOCKMASK`: one bit for each lock mode. -/
abbrev LockMask := BitVec 32

def lockbitOn (lockmode : Nat) : LockMask := BitVec.twoPow 32 lockmode

def lockbitOff (lockmode : Nat) : LockMask := ~~~ lockbitOn lockmode

/-- Two masks have a mode in common: the test `a & b` of the source. -/
def meets (a b : LockMask) : Bool := (a &&& b) != 0#32

def maxLockmodes : Nat := 10

/-- A lock method: its modes are `1 .. numLockModes`, and the conflict table has the
mask of the modes each of them conflicts with. The table is symmetric. -/
structure LockMethod where
  numLockModes : Nat
  conflictTab : Nat → LockMask
  numLockModes_lt : numLockModes < maxLockmodes
  symmetric : ∀ i j, 1 ≤ i → i ≤ numLockModes → 1 ≤ j → j ≤ numLockModes →
    (conflictTab i).getLsbD j = (conflictTab j).getLsbD i

/-- The modes of a method, in the order the loops of the source visit them. -/
def LockMethod.modes (lmt : LockMethod) : List Nat := List.range' 1 lmt.numLockModes

/-! ## The shared lock table -/

/-- `PROCLOCK`: the modes a process holds on an object. -/
structure ProcLock where
  proc : Nat
  holdMask : LockMask
  deriving DecidableEq, Repr

/-- A member of the wait queue: what `PGPROC` says about the wait. -/
structure Waiter where
  proc : Nat
  waitLockMode : Nat
  heldLocks : LockMask
  deriving DecidableEq, Repr

structure Lock where
  grantMask : LockMask
  waitMask : LockMask
  procLocks : List ProcLock
  waitProcs : List Waiter
  requested : Nat → Nat
  nRequested : Nat
  granted : Nat → Nat
  nGranted : Nat

def Lock.empty : Lock where
  grantMask := 0
  waitMask := 0
  procLocks := []
  waitProcs := []
  requested := fun _ => 0
  nRequested := 0
  granted := fun _ => 0
  nGranted := 0

namespace Lock

def hasProc (lock : Lock) (proc : Nat) : Bool :=
  lock.procLocks.any fun pl => pl.proc == proc

/-- The modes the process holds; none when it has no `PROCLOCK`. -/
def holdMask (lock : Lock) (proc : Nat) : LockMask :=
  match lock.procLocks.find? fun pl => pl.proc == proc with
  | some pl => pl.holdMask
  | none => 0

/-- Find or create the `PROCLOCK` of a process. -/
def enterProc (lock : Lock) (proc : Nat) : Lock :=
  if lock.hasProc proc then lock
  else { lock with procLocks := lock.procLocks ++ [⟨proc, 0⟩] }

def setHold (lock : Lock) (proc : Nat) (holdMask : LockMask) : Lock :=
  { lock with
    procLocks := lock.procLocks.map fun pl =>
      if pl.proc = proc then { pl with holdMask := holdMask } else pl }

def removeProc (lock : Lock) (proc : Nat) : Lock :=
  { lock with procLocks := lock.procLocks.filter fun pl => pl.proc ≠ proc }

def request (lock : Lock) (lockmode : Nat) : Lock :=
  { lock with
    nRequested := lock.nRequested + 1
    requested := Function.update lock.requested lockmode (lock.requested lockmode + 1) }

def unrequest (lock : Lock) (lockmode : Nat) : Lock :=
  { lock with
    nRequested := lock.nRequested - 1
    requested := Function.update lock.requested lockmode (lock.requested lockmode - 1) }

def onQueue (lock : Lock) (proc : Nat) : Bool :=
  lock.waitProcs.any fun w => w.proc == proc

def dequeue (lock : Lock) (proc : Nat) : Lock :=
  { lock with waitProcs := lock.waitProcs.filter fun w => w.proc ≠ proc }

end Lock

/-! ## Granting and releasing -/

variable (lmt : LockMethod)

/-- The modes held by other processes than the one that holds `myLocks`. -/
def otherLocks (lock : Lock) (myLocks : LockMask) : LockMask :=
  lmt.modes.foldl (fun mask i =>
    let myHolding := if myLocks.getLsbD i then 1 else 0
    if lock.granted i > myHolding then mask ||| lockbitOn i else mask) 0

/-- `LockCheckConflicts` returns `STATUS_OK`. -/
def lockCheckConflicts (lockmode : Nat) (lock : Lock) (proc : Nat) : Bool :=
  if !meets (lmt.conflictTab lockmode) lock.grantMask then true
  else !meets (lmt.conflictTab lockmode) (otherLocks lmt lock (lock.holdMask proc))

def grantLock (lock : Lock) (proc lockmode : Nat) : Lock :=
  let granted := Function.update lock.granted lockmode (lock.granted lockmode + 1)
  { lock.setHold proc (lock.holdMask proc ||| lockbitOn lockmode) with
    nGranted := lock.nGranted + 1
    granted := granted
    grantMask := lock.grantMask ||| lockbitOn lockmode
    waitMask :=
      if granted lockmode = lock.requested lockmode then
        lock.waitMask &&& lockbitOff lockmode
      else lock.waitMask }

/-- `UnGrantLock`: the changed lock, and whether a waiter may have to be woken. -/
def unGrantLock (lock : Lock) (lockmode proc : Nat) : Lock × Bool :=
  let granted := Function.update lock.granted lockmode (lock.granted lockmode - 1)
  let wakeupNeeded := meets (lmt.conflictTab lockmode) lock.waitMask
  ({ (lock.unrequest lockmode).setHold proc (lock.holdMask proc &&& lockbitOff lockmode) with
      nGranted := lock.nGranted - 1
      granted := granted
      grantMask :=
        if granted lockmode = 0 then lock.grantMask &&& lockbitOff lockmode
        else lock.grantMask },
    wakeupNeeded)

/-- The loop of `ProcLockWakeup`: `rest` are the waiters not yet looked at. -/
def procLockWakeupLoop (lock : Lock) (aheadRequests : LockMask) (woken : List Nat) :
    List Waiter → Lock × List Nat
  | [] => (lock, woken)
  | w :: rest =>
    if !meets (lmt.conflictTab w.waitLockMode) aheadRequests &&
        lockCheckConflicts lmt w.waitLockMode lock w.proc then
      procLockWakeupLoop ((grantLock lock w.proc w.waitLockMode).dequeue w.proc)
        aheadRequests (woken ++ [w.proc]) rest
    else
      procLockWakeupLoop lock (aheadRequests ||| lockbitOn w.waitLockMode) woken rest

def procLockWakeup (lock : Lock) : Lock × List Nat :=
  procLockWakeupLoop lmt lock 0 [] lock.waitProcs

def cleanUpLock (lock : Lock) (proc : Nat) (wakeupNeeded : Bool) : Lock × List Nat :=
  let lock := if lock.holdMask proc = 0 then lock.removeProc proc else lock
  if lock.nRequested = 0 then (Lock.empty, [])
  else if wakeupNeeded then procLockWakeup lmt lock
  else (lock, [])

/-- `RemoveFromWaitQueue`, of a process that waits for `lockmode`. -/
def removeFromWaitQueue (lock : Lock) (proc lockmode : Nat) : Lock × List Nat :=
  let lock := (lock.dequeue proc).unrequest lockmode
  let lock :=
    if lock.granted lockmode = lock.requested lockmode then
      { lock with waitMask := lock.waitMask &&& lockbitOff lockmode }
    else lock
  cleanUpLock lmt lock proc true

/-! ## Going to sleep -/

/-- Where `ProcSleep` puts the process: the place in the queue, whether it sees a
deadlock there, or that it grants the lock at once. -/
inductive SleepPlace where
  | grant
  | before (place : Nat)
  | earlyDeadlock (place : Nat)
  deriving DecidableEq, Repr

/-- The scan of the wait queue in `ProcSleep`: `rest` are the waiters not yet looked
at, and `place` is the number of those passed. -/
def procSleepScan (lock : Lock) (proc lockmode : Nat) (myHeldLocks : LockMask)
    (aheadRequests : LockMask) (place : Nat) : List Waiter → SleepPlace
  | [] => .before place
  | w :: rest =>
    -- must that process wait for this one?
    if meets (lmt.conflictTab w.waitLockMode) myHeldLocks then
      -- must this one wait for that process?
      if meets (lmt.conflictTab lockmode) w.heldLocks then .earlyDeadlock place
      else if !meets (lmt.conflictTab lockmode) aheadRequests &&
          lockCheckConflicts lmt lockmode lock proc then .grant
      else .before place
    else
      procSleepScan lock proc lockmode myHeldLocks
        (aheadRequests ||| lockbitOn w.waitLockMode) (place + 1) rest

/-- The place `ProcSleep` finds; a process that holds nothing goes to the tail. -/
def procSleepPlace (lock : Lock) (proc lockmode : Nat) : SleepPlace :=
  let myHeldLocks := lock.holdMask proc
  if myHeldLocks ≠ 0 then
    procSleepScan lmt lock proc lockmode myHeldLocks 0 0 lock.waitProcs
  else .before lock.waitProcs.length

def joinQueue (lock : Lock) (proc lockmode place : Nat) : Lock :=
  { lock with
    waitProcs := lock.waitProcs.take place ++
      ⟨proc, lockmode, lock.holdMask proc⟩ :: lock.waitProcs.drop place
    waitMask := lock.waitMask ||| lockbitOn lockmode }

/-- How a call that reached the shared table ended. -/
inductive AcquireResult where
  | ok
  | notAvail
  | sleeping
  | deadlock
  | alreadyHeld
  deriving DecidableEq, Repr

/-- `ProcSleep`, up to the moment the process sleeps. -/
def procSleep (lock : Lock) (proc lockmode : Nat) : Lock × AcquireResult × List Nat :=
  match procSleepPlace lmt lock proc lockmode with
  | .grant => (grantLock lock proc lockmode, .ok, [])
  | .before place => (joinQueue lock proc lockmode place, .sleeping, [])
  | .earlyDeadlock place =>
    let (lock, woken) :=
      removeFromWaitQueue lmt (joinQueue lock proc lockmode place) proc lockmode
    (lock, .deadlock, woken)

/-- `LockAcquireExtended`, from the moment it has the partition lock. -/
def lockAcquireShared (lock : Lock) (proc lockmode : Nat) (dontWait : Bool) :
    Lock × AcquireResult × List Nat :=
  let lock := (lock.enterProc proc).request lockmode
  if (lock.holdMask proc).getLsbD lockmode then
    -- "lock %s on object %u/%u/%u is already held", with the request counted
    (lock, .alreadyHeld, [])
  else if !meets (lmt.conflictTab lockmode) lock.waitMask &&
      lockCheckConflicts lmt lockmode lock proc then
    (grantLock lock proc lockmode, .ok, [])
  else if dontWait then
    let lock := if lock.holdMask proc = 0 then lock.removeProc proc else lock
    (lock.unrequest lockmode, .notAvail, [])
  else procSleep lmt lock proc lockmode

/-- The loop of `LockReleaseAll` over the modes of one `PROCLOCK`. -/
def unGrantModes (proc : Nat) (releaseMask : LockMask) (lock : Lock) (wakeupNeeded : Bool) :
    List Nat → Lock × Bool
  | [] => (lock, wakeupNeeded)
  | i :: rest =>
    if releaseMask.getLsbD i then
      let (lock', needed) := unGrantLock lmt lock i proc
      unGrantModes proc releaseMask lock' (wakeupNeeded || needed) rest
    else unGrantModes proc releaseMask lock wakeupNeeded rest

/-- `LockReleaseAll`'s treatment of one `PROCLOCK`, marked with `releaseMask`. -/
def releaseProcLock (lock : Lock) (proc : Nat) (allLocks : Bool) (releaseMask : LockMask) :
    Lock × List Nat :=
  let releaseMask := if allLocks then lock.holdMask proc else releaseMask
  if releaseMask = 0 ∧ lock.holdMask proc ≠ 0 then (lock, [])
  else
    let (lock, wakeupNeeded) := unGrantModes lmt proc releaseMask lock false lmt.modes
    cleanUpLock lmt lock proc wakeupNeeded

end PgTuning.Lmgr
