import Mathlib.Logic.Function.Basic

/-!
# The shared invalidation queue

Backends tell each other about catalog changes through a queue in shared memory (`sinvaladt.c`). The
last `MAXNUMMESSAGES` messages are kept in a circular buffer, and each backend has a counter for the
next message it has to read. A backend that falls too far behind is put into reset state: its next
read tells it to discard everything it has cached.

Writers, and everyone who adds or removes a backend, hold `SInvalWriteLock`; readers hold
`SInvalReadLock` in shared mode, and may run while a writer fills the buffer; `SICleanupQueue` holds
both exclusively. The model takes one step for each stretch of a routine that cannot be told apart
from an atomic one: an acquisition, the body of `SICleanupQueue`, a message written, a message read,
a counter published under its spinlock. A process that waits for a lock does not move.

The counters are C `int`s, modelled by `Int` without a bound; that they never leave the range of an
`int` is part of what is proved. Signals are not modelled.

Four fields of `Sys` only record what happened: `log` has all messages ever published, `results`
what the calls of `SIGetDataEntries` returned since the process registered, `since` how many
messages had been published at the point from which the process is to read, `fetched` how many when
it last read `maxMsgNum`.
-/

namespace PgTuning.Sinval

def maxNumMessages : Nat := 4096

def msgNumWraparound : Nat := maxNumMessages * 262144

def cleanupMin : Nat := maxNumMessages / 2

def cleanupQuantum : Nat := maxNumMessages / 16

def sigThreshold : Nat := maxNumMessages / 2

def writeQuantum : Nat := 64

/-- A process; `MyProcPid` is never zero. -/
abbrev Pid := Nat

/-- Per-backend state in shared memory; `procPid` is `none` for C's zero. -/
structure ProcState where
  procPid : Option Pid
  nextMsgNum : Int
  resetState : Bool
  signaled : Bool
  sendOnly : Bool
  nextLXID : Nat

structure SISeg (Msg : Type) where
  minMsgNum : Int
  maxMsgNum : Int
  nextThreshold : Int
  lastBackend : Nat
  maxBackends : Nat
  buffer : Nat → Msg
  procState : Nat → ProcState

variable {Msg : Type}

/-- `CreateSharedInvalidationState`; the buffer is not filled. -/
def createSharedInvalidationState (maxBackends : Nat) (buffer : Nat → Msg) :
    SISeg Msg where
  minMsgNum := 0
  maxMsgNum := 0
  nextThreshold := cleanupMin
  lastBackend := 0
  maxBackends := maxBackends
  buffer := buffer
  procState := fun _ => ⟨none, 0, false, false, false, 0⟩

namespace SISeg

variable (seg : SISeg Msg)

def setProc (i : Nat) (stateP : ProcState) : SISeg Msg :=
  { seg with procState := Function.update seg.procState i stateP }

/-! ## Adding and removing backends -/

/-- The entry a new backend takes: a free one below `lastBackend`, else the next
one if the array has it. -/
def freeEntry : Option Nat :=
  match (List.range seg.lastBackend).find? fun i =>
      (seg.procState i).procPid.isNone with
  | some i => some i
  | none => if seg.lastBackend < seg.maxBackends then some seg.lastBackend else none

/-- `SharedInvalBackendInit` once entry `i` is found. -/
def sharedInvalBackendInit (i : Nat) (myProcPid : Pid) (sendOnly : Bool) : SISeg Msg :=
  { seg.setProc i
      { seg.procState i with
        procPid := some myProcPid
        nextMsgNum := seg.maxMsgNum
        resetState := false
        signaled := false
        sendOnly := sendOnly } with
    lastBackend := if i < seg.lastBackend then seg.lastBackend else i + 1 }

/-- The index of the last active entry below `i`, plus one. -/
def lastActive (procState : Nat → ProcState) : Nat → Nat
  | 0 => 0
  | i + 1 => if (procState i).procPid.isSome then i + 1 else lastActive procState i

def cleanupInvalidationState (i : Nat) (nextLocalTransactionId : Nat) : SISeg Msg :=
  let seg := seg.setProc i
    { seg.procState i with
      nextLXID := nextLocalTransactionId
      procPid := none
      nextMsgNum := 0
      resetState := false
      signaled := false }
  { seg with lastBackend := lastActive seg.procState seg.lastBackend }

/-! ## `SICleanupQueue` -/

/-- The variables of the loop over the backends. -/
structure Scan where
  min : Int
  minsig : Int
  needSig : Option Nat
  procState : Nat → ProcState

def scanBackend (lowbound : Int) (c : Scan) (i : Nat) : Scan :=
  let stateP := c.procState i
  let n := stateP.nextMsgNum
  if stateP.procPid = none ∨ stateP.resetState = true ∨ stateP.sendOnly = true then c
  else if n < lowbound then
    { c with procState := Function.update c.procState i { stateP with resetState := true } }
  else
    { c with
      min := if n < c.min then n else c.min
      minsig := if n < c.minsig ∧ stateP.signaled = false then n else c.minsig
      needSig := if n < c.minsig ∧ stateP.signaled = false then some i else c.needSig }

def scan (minFree : Int) : Scan :=
  (List.range seg.lastBackend).foldl
    (scanBackend (seg.maxMsgNum - maxNumMessages + minFree))
    ⟨seg.maxMsgNum, seg.maxMsgNum - sigThreshold, none, seg.procState⟩

/-- The counters are decremented together when `minMsgNum` is large. -/
def forestallOverflow : SISeg Msg :=
  if msgNumWraparound ≤ seg.minMsgNum then
    { seg with
      minMsgNum := seg.minMsgNum - msgNumWraparound
      maxMsgNum := seg.maxMsgNum - msgNumWraparound
      procState := fun i =>
        if i < seg.lastBackend then
          { seg.procState i with
            nextMsgNum := (seg.procState i).nextMsgNum - msgNumWraparound }
        else seg.procState i }
  else seg

def setThreshold : SISeg Msg :=
  let numMsgs := seg.maxMsgNum - seg.minMsgNum
  { seg with
    nextThreshold :=
      if numMsgs < cleanupMin then cleanupMin
      else (numMsgs / cleanupQuantum + 1) * cleanupQuantum }

/-- The backend that is about to be sent a catchup signal is marked. -/
def markSignaled : Option Nat → SISeg Msg
  | some i => seg.setProc i { seg.procState i with signaled := true }
  | none => seg

/-- `SICleanupQueue` while both locks are held: the segment, and whether the locks
are given up to send a signal. -/
def siCleanupQueue (minFree : Int) : SISeg Msg × Bool :=
  let c := seg.scan minFree
  let cleaned := { seg with minMsgNum := c.min, procState := c.procState }
  (cleaned.forestallOverflow.setThreshold.markSignaled c.needSig, c.needSig.isSome)

end SISeg

/-! ## Processes -/

/-- Where a process is. It holds `SInvalWriteLock` in `insertCheck`,
`insertWrite` and `cleanup`, and `SInvalReadLock` (shared) in `getFetch`,
`getTest` and `getLoop`. -/
inductive Pc (Msg : Type) where
  | unregistered
  | ready
  /-- `SIInsertDataEntries` waits for the write lock to insert `batch`; `data` is
  what remains afterwards. -/
  | insertLock (batch data : List Msg)
  /-- At the head of the loop that makes room for `batch`. -/
  | insertCheck (batch data : List Msg)
  /-- `written` is in the buffer, `batch` is still to be copied there. -/
  | insertWrite (max : Int) (written batch data : List Msg)
  /-- `SICleanupQueue` waits for the write lock. -/
  | cleanupLock (minFree : Int)
  | cleanup (minFree : Int)
  /-- `SIGetDataEntries` waits for the read lock. -/
  | getLock (datasize : Nat)
  | getFetch (datasize : Nat)
  | getTest (datasize : Nat) (max : Int)
  | getLoop (datasize : Nat) (max : Int) (data : List Msg)
deriving DecidableEq

/-- The queue, the locks and all processes. -/
structure Sys (Msg : Type) where
  seg : SISeg Msg
  pc : Pid → Pc Msg
  myBackendId : Pid → Nat
  nextLocalTransactionId : Pid → Nat
  /-- The holder of `SInvalWriteLock`. -/
  writeLock : Option Pid
  /-- The shared holders of `SInvalReadLock`. -/
  readers : List Pid
  log : List Msg
  results : Pid → List (Option (List Msg))
  since : Pid → Nat
  fetched : Pid → Nat

/-- What the scheduler lets a process do. -/
inductive Act (Msg : Type) where
  | init (sendOnly : Bool)
  | exit
  | insert (data : List Msg)
  | cleanup (minFree : Int)
  | get (datasize : Nat)
  /-- Go on in the routine the process is in. -/
  | go

namespace Sys

def start (maxBackends : Nat) (buffer : Nat → Msg) : Sys Msg where
  seg := createSharedInvalidationState maxBackends buffer
  pc := fun _ => .unregistered
  myBackendId := fun _ => 0
  nextLocalTransactionId := fun _ => 0
  writeLock := none
  readers := []
  log := []
  results := fun _ => []
  since := fun _ => 0
  fetched := fun _ => 0

variable (s : Sys Msg) (p : Pid)

def setPc (pc : Pc Msg) : Sys Msg :=
  { s with pc := Function.update s.pc p pc }

def stateP : ProcState := s.seg.procState (s.myBackendId p)

/-- `SharedInvalBackendInit`. With no entry left the process reports the error and
stays out. -/
def register (sendOnly : Bool) : Sys Msg :=
  match s.seg.freeEntry with
  | none => s
  | some i =>
    { s.setPc p .ready with
      seg := s.seg.sharedInvalBackendInit i p sendOnly
      myBackendId := Function.update s.myBackendId p i
      nextLocalTransactionId :=
        Function.update s.nextLocalTransactionId p (s.seg.procState i).nextLXID
      results := Function.update s.results p []
      since := Function.update s.since p s.log.length }

def deregister : Sys Msg :=
  { s.setPc p .unregistered with
    seg := s.seg.cleanupInvalidationState (s.myBackendId p)
      (s.nextLocalTransactionId p) }

/-- The next pass of the loop of `SIInsertDataEntries`, or its end. -/
def nextBatch (data : List Msg) : Pc Msg :=
  if data.isEmpty then .ready
  else .insertLock (data.take writeQuantum) (data.drop writeQuantum)

/-- One pass of the loop that makes room for the batch. -/
def insertCheck (batch data : List Msg) : Sys Msg :=
  let numMsgs := s.seg.maxMsgNum - s.seg.minMsgNum
  if numMsgs + batch.length > maxNumMessages ∨ numMsgs ≥ s.seg.nextThreshold then
    -- `SICleanupQueue` waits until no reader is left.
    if s.readers.isEmpty then
      let (seg, released) := s.seg.siCleanupQueue batch.length
      if released then
        { s.setPc p (.insertLock batch data) with seg := seg, writeLock := none }
      else { s with seg := seg }
    else s
  else s.setPc p (.insertWrite s.seg.maxMsgNum [] batch data)

/-- One message is copied to the buffer; after the last one `maxMsgNum` is
updated and the lock released. -/
def insertWrite (s : Sys Msg) (p : Pid) (max : Int) (written batch data : List Msg) :
    Sys Msg :=
  match batch with
  | m :: batch =>
    { s.setPc p (.insertWrite (max + 1) (written ++ [m]) batch data) with
      seg := { s.seg with
        buffer := Function.update s.seg.buffer (max.toNat % maxNumMessages) m } }
  | [] =>
    { s.setPc p (nextBatch data) with
      seg := { s.seg with maxMsgNum := max }
      writeLock := none
      log := s.log ++ written }

/-- The body of `SICleanupQueue` for a caller without the write lock. -/
def cleanup (minFree : Int) : Sys Msg :=
  if s.readers.isEmpty then
    { s.setPc p .ready with
      seg := (s.seg.siCleanupQueue minFree).1
      writeLock := none }
  else s

/-- `SIGetDataEntries` returns and releases the read lock. -/
def getReturn (stateP : ProcState) (result : Option (List Msg)) : Sys Msg :=
  { s.setPc p .ready with
    seg := s.seg.setProc (s.myBackendId p) stateP
    readers := s.readers.filter (· ≠ p)
    results := Function.update s.results p (result :: s.results p) }

/-- The test for the reset state; -1 is returned as `none`. -/
def getTest (datasize : Nat) (max : Int) : Sys Msg :=
  if (s.stateP p).resetState = true then
    { s.getReturn p
        { s.stateP p with nextMsgNum := max, resetState := false, signaled := false }
        none with
      since := Function.update s.since p (s.fetched p) }
  else s.setPc p (.getLoop datasize max [])

/-- One pass of the loop that copies messages, or its end. -/
def getLoop (s : Sys Msg) (p : Pid) (datasize : Nat) (max : Int) (data : List Msg) :
    Sys Msg :=
  let stateP := s.stateP p
  if data.length < datasize ∧ stateP.nextMsgNum < max then
    let m := s.seg.buffer (stateP.nextMsgNum.toNat % maxNumMessages)
    { s.setPc p (.getLoop datasize max (data ++ [m])) with
      seg := s.seg.setProc (s.myBackendId p)
        { stateP with nextMsgNum := stateP.nextMsgNum + 1 } }
  else
    s.getReturn p
      { stateP with
        signaled := if stateP.nextMsgNum ≥ max then false else stateP.signaled }
      (some data)

def lockWrite (pc : Pc Msg) : Sys Msg :=
  match s.writeLock with
  | none => { s.setPc p pc with writeLock := some p }
  | some _ => s

def go : Sys Msg :=
  match s.pc p with
  | .unregistered => s
  | .ready => s
  | .insertLock batch data => s.lockWrite p (.insertCheck batch data)
  | .insertCheck batch data => s.insertCheck p batch data
  | .insertWrite max written batch data => s.insertWrite p max written batch data
  | .cleanupLock minFree => s.lockWrite p (.cleanup minFree)
  | .cleanup minFree => s.cleanup p minFree
  -- Nobody holds the read lock exclusively between two steps.
  | .getLock datasize => { s.setPc p (.getFetch datasize) with readers := p :: s.readers }
  | .getFetch datasize =>
    { s.setPc p (.getTest datasize s.seg.maxMsgNum) with
      fetched := Function.update s.fetched p s.log.length }
  | .getTest datasize max => s.getTest p datasize max
  | .getLoop datasize max data => s.getLoop p datasize max data

/-- One step of process `p`. A routine is entered from `ready` only; backends are
added and removed under the write lock; a process that only sends does not read. -/
def step (a : Pid × Act Msg) : Sys Msg :=
  match a.2, s.pc a.1 with
  | .init sendOnly, .unregistered =>
    if s.writeLock.isNone then s.register a.1 sendOnly else s
  | .exit, .ready => if s.writeLock.isNone then s.deregister a.1 else s
  | .insert data, .ready => s.setPc a.1 (nextBatch data)
  | .cleanup minFree, .ready => s.setPc a.1 (.cleanupLock minFree)
  | .get datasize, .ready =>
    if (s.stateP a.1).sendOnly then s else s.setPc a.1 (.getLock datasize)
  | .go, _ => s.go a.1
  | _, _ => s

end Sys

end PgTuning.Sinval
