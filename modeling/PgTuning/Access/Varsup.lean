import PgTuning.Access.Transam

/-!
# Handing out transaction ids

`GetNewTransactionId` and `SetTransactionIdLimit` (`access/transam/varsup.c`). The counter and the
limits are in shared memory under `XidGenLock`. `GetNewTransactionId` gives the lock up while it
looks at the limits and does not look again when it has it back, so it is two critical sections:
the first ends with an id, a refusal or the wait for the lock, the other is `assignXid`. A run
interleaves the sections of all backends and the calls of `SetTransactionIdLimit`. Extending the
commit log, bootstrap and recovery are left out.
-/

namespace PgTuning.Access

/-- The part of `VariableCacheData` that protects against wraparound. -/
structure VariableCache where
  nextXid : TransactionId
  oldestXid : TransactionId
  xidVacLimit : TransactionId
  xidWarnLimit : TransactionId
  xidStopLimit : TransactionId
  xidWrapLimit : TransactionId
  oldestXidDB : Nat
deriving DecidableEq

/-- A limit that falls on a special id moves forward. -/
def skipSpecialUp (limit : TransactionId) : TransactionId :=
  if limit.toNat < firstNormalTransactionId.toNat then limit + firstNormalTransactionId else limit

/-- A limit that falls on a special id moves back. -/
def skipSpecialDown (limit : TransactionId) : TransactionId :=
  if limit.toNat < firstNormalTransactionId.toNat then limit - firstNormalTransactionId else limit

variable (oldest : TransactionId)

/-- Halfway around from the oldest id: `MaxTransactionId >> 1` further. -/
def wrapLimit : TransactionId := skipSpecialUp (oldest + 2147483647)

def stopLimit : TransactionId :=
  skipSpecialDown (wrapLimit oldest - 1000000)

def warnLimit : TransactionId :=
  skipSpecialDown (stopLimit oldest - 10000000)

def vacLimit (freezeMaxAge : Nat) (oldest : TransactionId) : TransactionId :=
  skipSpecialUp (oldest + BitVec.ofNat 32 freezeMaxAge)

/-- `SetTransactionIdLimit`; `freezeMaxAge` is `autovacuum_freeze_max_age`. -/
def setTransactionIdLimit (freezeMaxAge : Nat) (oldestDatfrozenxid : TransactionId)
    (oldestDatoid : Nat) (cache : VariableCache) : VariableCache :=
  { cache with
    oldestXid := oldestDatfrozenxid
    xidVacLimit := vacLimit freezeMaxAge oldestDatfrozenxid
    xidWarnLimit := warnLimit oldestDatfrozenxid
    xidStopLimit := stopLimit oldestDatfrozenxid
    xidWrapLimit := wrapLimit oldestDatfrozenxid
    oldestXidDB := oldestDatoid }

/-- What a backend says on its way through the limit path. -/
structure Notice where
  startAutovacLauncher : Bool
  /-- The database to be vacuumed and within how many transactions. -/
  warning : Option (Nat × TransactionId)
deriving DecidableEq

inductive LimitCheck where
  | below
  /-- "database is not accepting commands to avoid wraparound data loss in database ..." -/
  | refused (oldestDatoid : Nat)
  | past (notice : Notice)
deriving DecidableEq

/-- The tests of `GetNewTransactionId` on the values it reads in its first critical section. -/
def checkLimits (isUnderPostmaster : Bool) (cache : VariableCache) : LimitCheck :=
  let xid := cache.nextXid
  if transactionIdFollowsOrEquals xid cache.xidVacLimit then
    let startAutovacLauncher := isUnderPostmaster && xid.toNat % 65536 == 0
    if isUnderPostmaster && transactionIdFollowsOrEquals xid cache.xidStopLimit then
      .refused cache.oldestXidDB
    else if transactionIdFollowsOrEquals xid cache.xidWarnLimit then
      .past ⟨startAutovacLauncher, some (cache.oldestXidDB, cache.xidWrapLimit - xid)⟩
    else .past ⟨startAutovacLauncher, none⟩
  else .below

structure Proc where
  xid : TransactionId
  subxids : List TransactionId
  overflowed : Bool
deriving DecidableEq

def pgprocMaxCachedSubxids : Nat := 64

/-- The id goes into `MyProc` before the lock is released. -/
def storeXid (isSubXact : Bool) (xid : TransactionId) (myproc : Proc) : Proc :=
  if !isSubXact then { myproc with xid := xid }
  else if myproc.subxids.length < pgprocMaxCachedSubxids then
    { myproc with subxids := myproc.subxids ++ [xid] }
  else { myproc with overflowed := true }

/-- Where a backend is: outside, or between the two critical sections of a call. -/
inductive Phase where
  | idle
  | waiting (isSubXact : Bool)
deriving DecidableEq

structure XidBackend where
  phase : Phase
  proc : Proc
deriving DecidableEq

def XidBackend.isWaiting (b : XidBackend) : Bool :=
  match b.phase with
  | .idle => false
  | .waiting _ => true

/-- The shared counters, the backends, and the ids handed out, the last one first, that the oldest
id has not passed. -/
structure XidGen where
  cache : VariableCache
  backends : List XidBackend
  handedOut : List TransactionId

/-- What may happen: a call begins, a call that gave up the lock gets it back, or the limits are set
anew. -/
inductive XidEvent where
  | begin (i : Nat) (isSubXact : Bool)
  | resume (i : Nat)
  | setLimit (oldestDatfrozenxid : TransactionId) (oldestDatoid : Nat)

/-- The end of `GetNewTransactionId`, under the lock: the backend gets `nextXid`, which moves on. -/
def assignXid (s : XidGen) (i : Nat) (isSubXact : Bool) (myproc : Proc) : XidGen where
  cache := { s.cache with nextXid := transactionIdAdvance s.cache.nextXid }
  backends := s.backends.set i ⟨.idle, storeXid isSubXact s.cache.nextXid myproc⟩
  handedOut := s.cache.nextXid :: s.handedOut

def xidStep (freezeMaxAge : Nat) (s : XidGen) : XidEvent → XidGen
  | .begin i isSubXact =>
    match s.backends[i]? with
    | some ⟨.idle, myproc⟩ =>
      match checkLimits true s.cache with
      | .below => assignXid s i isSubXact myproc
      | .refused _ => s
      | .past _ => { s with backends := s.backends.set i ⟨.waiting isSubXact, myproc⟩ }
    | _ => s
  | .resume i =>
    match s.backends[i]? with
    | some ⟨.waiting isSubXact, myproc⟩ => assignXid s i isSubXact myproc
    | _ => s
  | .setLimit oldestDatfrozenxid oldestDatoid =>
    { s with
      cache := setTransactionIdLimit freezeMaxAge oldestDatfrozenxid oldestDatoid s.cache
      handedOut := s.handedOut.filter fun xid =>
        !transactionIdPrecedes xid oldestDatfrozenxid }

end PgTuning.Access
