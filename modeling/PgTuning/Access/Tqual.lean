import PgTuning.Access.Transam

/-!
# Tuple visibility

The `HeapTupleSatisfies...` routines of `tqual.c` decide from a tuple's header and the state of the
transactions in it whether the tuple is visible to their caller, and record in hint bits what they
have found out, so each of them returns the header as well.

The routines share their treatment of the inserting transaction (`checkXmin`), and four of them that
of the deleting one (`checkXmax`). Those for MVCC, toast and vacuum differ and have bodies of their
own.
-/

namespace PgTuning.Access

abbrev CommandId := BitVec 32

structure HeapTupleHeader where
  xmin : TransactionId
  xmax : TransactionId
  /-- `t_field3`: `t_cid` or `t_xvac`. -/
  field3 : BitVec 32
  comboCid : Bool
  xmaxExclLock : Bool
  xmaxSharedLock : Bool
  xminCommitted : Bool
  xminInvalid : Bool
  xmaxCommitted : Bool
  xmaxInvalid : Bool
  xmaxIsMulti : Bool
  movedOff : Bool
  movedIn : Bool
  deriving DecidableEq

inductive Hint where
  | xminCommitted
  | xminInvalid
  | xmaxCommitted
  | xmaxInvalid

/-- The backend that looks at a tuple: `TransactionIdIsCurrentTransactionId`, its
`TransactionXmin`, command counter and combo command ids, whether the commit record
of a transaction is still to be flushed, and `MultiXactIdIsRunning`. -/
structure Backend where
  isCurrent : TransactionId → Bool
  transactionXmin : TransactionId
  currentCommandId : CommandId
  combo : CommandId → CommandId × CommandId
  needsFlush : TransactionId → Bool
  multiRunning : TransactionId → Bool

structure Snapshot where
  xmin : TransactionId
  xmax : TransactionId
  xip : List TransactionId
  subxip : List TransactionId
  suboverflowed : Bool
  takenDuringRecovery : Bool
  curcid : CommandId

namespace HeapTupleHeader

variable (t : HeapTupleHeader)

/-- `HEAP_IS_LOCKED`: `xmax` only locked the tuple. -/
def isLocked : Bool := t.xmaxExclLock || t.xmaxSharedLock

def xvac : TransactionId :=
  if t.movedOff || t.movedIn then t.field3 else invalidTransactionId

def cmin (b : Backend) : CommandId :=
  if t.comboCid then (b.combo t.field3).1 else t.field3

def cmax (b : Backend) : CommandId :=
  if t.comboCid then (b.combo t.field3).2 else t.field3

def withHint : Hint → HeapTupleHeader
  | .xminCommitted => { t with xminCommitted := true }
  | .xminInvalid => { t with xminInvalid := true }
  | .xmaxCommitted => { t with xmaxCommitted := true }
  | .xmaxInvalid => { t with xmaxInvalid := true }

/-- `SetHintBits`: not before the commit record of `xid` is flushed. -/
def setHintBits (b : Backend) (hint : Hint) (xid : TransactionId) : HeapTupleHeader :=
  if transactionIdIsValid xid && b.needsFlush xid then t else t.withHint hint

end HeapTupleHeader

variable {α : Type} (x : Xacts) (b : Backend)

/-! ## The inserting and the deleting transaction -/

variable (t : HeapTupleHeader)

/-- The test of the inserting transaction: `invisible` if it has not inserted the
tuple, `own` for a tuple of the current transaction, `other` while another one is
inserting it, and `rest` if it has committed. -/
def checkXmin (invisible other : α)
    (own rest : HeapTupleHeader → α × HeapTupleHeader) : α × HeapTupleHeader :=
  if t.xminCommitted then rest t
  else if t.xminInvalid then (invisible, t)
  else if t.movedOff then
    if b.isCurrent t.xvac then (invisible, t)
    else if !x.transactionIdIsInProgress t.xvac then
      if x.transactionIdDidCommit b.transactionXmin t.xvac then
        (invisible, t.setHintBits b .xminInvalid invalidTransactionId)
      else rest (t.setHintBits b .xminCommitted invalidTransactionId)
    else rest t
  else if t.movedIn then
    if !b.isCurrent t.xvac then
      if x.transactionIdIsInProgress t.xvac then (invisible, t)
      else if x.transactionIdDidCommit b.transactionXmin t.xvac then
        rest (t.setHintBits b .xminCommitted invalidTransactionId)
      else (invisible, t.setHintBits b .xminInvalid invalidTransactionId)
    else rest t
  else if b.isCurrent t.xmin then own t
  else if x.transactionIdIsInProgress t.xmin then (other, t)
  else if x.transactionIdDidCommit b.transactionXmin t.xmin then
    rest (t.setHintBits b .xminCommitted t.xmin)
  else (invisible, t.setHintBits b .xminInvalid invalidTransactionId)

/-- The deleter of a tuple that the current transaction has inserted. -/
def checkOwnXmax (live deleted : α) : α × HeapTupleHeader :=
  if t.xmaxInvalid then (live, t)
  else if t.isLocked then (live, t)
  else if !b.isCurrent t.xmax then
    -- The deleting subtransaction must have aborted.
    (live, t.setHintBits b .xmaxInvalid invalidTransactionId)
  else (deleted, t)

/-- The test of the deleting transaction, for a tuple whose inserter has committed. -/
def checkXmax (live deleted ownDeleted being : α)
    (multi : HeapTupleHeader → α × HeapTupleHeader) (t : HeapTupleHeader) :
    α × HeapTupleHeader :=
  if t.xmaxInvalid then (live, t)
  else if t.xmaxCommitted then
    if t.isLocked then (live, t) else (deleted, t)
  else if t.xmaxIsMulti then multi t
  else if b.isCurrent t.xmax then
    if t.isLocked then (live, t) else (ownDeleted, t)
  else if x.transactionIdIsInProgress t.xmax then (being, t)
  else if !x.transactionIdDidCommit b.transactionXmin t.xmax then
    (live, t.setHintBits b .xmaxInvalid invalidTransactionId)
  else if t.isLocked then
    (live, t.setHintBits b .xmaxInvalid invalidTransactionId)
  else (deleted, t.setHintBits b .xmaxCommitted t.xmax)

/-! ## The routines -/

def heapTupleSatisfiesSelf : Bool × HeapTupleHeader :=
  checkXmin x b t false false (fun t => checkOwnXmax b t true false)
    (checkXmax x b true false false true (fun t => (true, t)))

def heapTupleSatisfiesNow : Bool × HeapTupleHeader :=
  checkXmin x b t false false
    (fun t =>
      if b.currentCommandId.toNat ≤ (t.cmin b).toNat then (false, t)
      else checkOwnXmax b t true (b.currentCommandId.toNat ≤ (t.cmax b).toNat))
    (fun t => checkXmax x b true false (b.currentCommandId.toNat ≤ (t.cmax b).toNat) true
      (fun t => (true, t)) t)

def heapTupleSatisfiesAny : Bool × HeapTupleHeader := (true, t)

/-- Only tuples moved by an old-style `VACUUM FULL` can be invisible. -/
def heapTupleSatisfiesToast : Bool × HeapTupleHeader :=
  if t.xminCommitted then (true, t)
  else if t.xminInvalid then (false, t)
  else if t.movedOff then
    if b.isCurrent t.xvac then (false, t)
    else if !x.transactionIdIsInProgress t.xvac then
      if x.transactionIdDidCommit b.transactionXmin t.xvac then
        (false, t.setHintBits b .xminInvalid invalidTransactionId)
      else (true, t.setHintBits b .xminCommitted invalidTransactionId)
    else (true, t)
  else if t.movedIn then
    if !b.isCurrent t.xvac then
      if x.transactionIdIsInProgress t.xvac then (false, t)
      else if x.transactionIdDidCommit b.transactionXmin t.xvac then
        (true, t.setHintBits b .xminCommitted invalidTransactionId)
      else (false, t.setHintBits b .xminInvalid invalidTransactionId)
    else (true, t)
  else (true, t)

inductive HtsuResult where
  | mayBeUpdated
  | invisible
  | selfUpdated
  | updated
  | beingUpdated
  deriving DecidableEq

def heapTupleSatisfiesUpdate (curcid : CommandId) (t : HeapTupleHeader) :
    HtsuResult × HeapTupleHeader :=
  checkXmin x b t .invisible .invisible
    (fun t =>
      if curcid.toNat ≤ (t.cmin b).toNat then (.invisible, t)
      else checkOwnXmax b t .mayBeUpdated
        (if curcid.toNat ≤ (t.cmax b).toNat then .selfUpdated else .invisible))
    (fun t => checkXmax x b .mayBeUpdated .updated
      (if curcid.toNat ≤ (t.cmax b).toNat then .selfUpdated else .invisible) .beingUpdated
      (fun t =>
        if b.multiRunning t.xmax then (.beingUpdated, t)
        else (.mayBeUpdated, t.setHintBits b .xmaxInvalid invalidTransactionId)) t)

/-- The second and third result are `snapshot->xmin` and `snapshot->xmax`. -/
def heapTupleSatisfiesDirty : (Bool × TransactionId × TransactionId) × HeapTupleHeader :=
  let none := invalidTransactionId
  checkXmin x b t (false, none, none) (true, t.xmin, none)
    (fun t => checkOwnXmax b t (true, none, none) (false, none, none))
    (fun t => checkXmax x b (true, none, none) (false, none, none) (false, none, none)
      (true, none, t.xmax) (fun t => ((true, none, none), t)) t)

/-- `XidInMVCCSnapshot`: is the transaction still in progress for the snapshot? -/
def xidInMVCCSnapshot (xid : TransactionId) (snapshot : Snapshot) : Bool :=
  if transactionIdPrecedes xid snapshot.xmin then false
  else if transactionIdFollowsOrEquals xid snapshot.xmax then true
  else if !snapshot.takenDuringRecovery then
    if !snapshot.suboverflowed then
      if snapshot.subxip.contains xid then true else snapshot.xip.contains xid
    else
      let xid := x.subTransGetTopmostTransaction b.transactionXmin xid
      if transactionIdPrecedes xid snapshot.xmin then false else snapshot.xip.contains xid
  else if snapshot.suboverflowed then
    let xid := x.subTransGetTopmostTransaction b.transactionXmin xid
    if transactionIdPrecedes xid snapshot.xmin then false else snapshot.subxip.contains xid
  else snapshot.subxip.contains xid

/-- The part of `HeapTupleSatisfiesMVCC` after the inserter is known to have
committed. -/
def mvccRest (snapshot : Snapshot) (t : HeapTupleHeader) : Bool × HeapTupleHeader :=
  if xidInMVCCSnapshot x b t.xmin snapshot then (false, t)
  else if t.xmaxInvalid then (true, t)
  else if t.isLocked then (true, t)
  else if t.xmaxIsMulti then (true, t)
  else if !t.xmaxCommitted then
    if b.isCurrent t.xmax then (decide (snapshot.curcid.toNat ≤ (t.cmax b).toNat), t)
    else if x.transactionIdIsInProgress t.xmax then (true, t)
    else if !x.transactionIdDidCommit b.transactionXmin t.xmax then
      (true, t.setHintBits b .xmaxInvalid invalidTransactionId)
    else (xidInMVCCSnapshot x b t.xmax snapshot, t.setHintBits b .xmaxCommitted t.xmax)
  else (xidInMVCCSnapshot x b t.xmax snapshot, t)

def heapTupleSatisfiesMVCC (snapshot : Snapshot) (t : HeapTupleHeader) :
    Bool × HeapTupleHeader :=
  checkXmin x b t false false
    (fun t =>
      if snapshot.curcid.toNat ≤ (t.cmin b).toNat then (false, t)
      else checkOwnXmax b t true (snapshot.curcid.toNat ≤ (t.cmax b).toNat))
    (mvccRest x b snapshot)

inductive HtsvResult where
  | dead
  | live
  | recentlyDead
  | insertInProgress
  | deleteInProgress
  deriving DecidableEq

/-- The part of `HeapTupleSatisfiesVacuum` about the deleting transaction. -/
def vacuumXmax (oldestXmin : TransactionId) (t : HeapTupleHeader) :
    HtsvResult × HeapTupleHeader :=
  let finished := if !transactionIdPrecedes t.xmax oldestXmin then .recentlyDead else .dead
  if t.xmaxInvalid then (.live, t)
  else if t.isLocked then
    if !t.xmaxCommitted then
      if t.xmaxIsMulti then
        if b.multiRunning t.xmax then (.live, t)
        else (.live, t.setHintBits b .xmaxInvalid invalidTransactionId)
      else if x.transactionIdIsInProgress t.xmax then (.live, t)
      else (.live, t.setHintBits b .xmaxInvalid invalidTransactionId)
    else (.live, t)
  else if t.xmaxIsMulti then (.live, t)
  else if !t.xmaxCommitted then
    if x.transactionIdIsInProgress t.xmax then (.deleteInProgress, t)
    else if x.transactionIdDidCommit b.transactionXmin t.xmax then
      (finished, t.setHintBits b .xmaxCommitted t.xmax)
    else (.live, t.setHintBits b .xmaxInvalid invalidTransactionId)
  else (finished, t)

def heapTupleSatisfiesVacuum (oldestXmin : TransactionId) (t : HeapTupleHeader) :
    HtsvResult × HeapTupleHeader :=
  if t.xminCommitted then vacuumXmax x b oldestXmin t
  else if t.xminInvalid then (.dead, t)
  else if t.movedOff then
    if b.isCurrent t.xvac then (.deleteInProgress, t)
    else if x.transactionIdIsInProgress t.xvac then (.deleteInProgress, t)
    else if x.transactionIdDidCommit b.transactionXmin t.xvac then
      (.dead, t.setHintBits b .xminInvalid invalidTransactionId)
    else vacuumXmax x b oldestXmin (t.setHintBits b .xminCommitted invalidTransactionId)
  else if t.movedIn then
    if b.isCurrent t.xvac then (.insertInProgress, t)
    else if x.transactionIdIsInProgress t.xvac then (.insertInProgress, t)
    else if x.transactionIdDidCommit b.transactionXmin t.xvac then
      vacuumXmax x b oldestXmin (t.setHintBits b .xminCommitted invalidTransactionId)
    else (.dead, t.setHintBits b .xminInvalid invalidTransactionId)
  else if x.transactionIdIsInProgress t.xmin then
    if t.xmaxInvalid then (.insertInProgress, t)
    else if t.isLocked then (.insertInProgress, t)
    else (.deleteInProgress, t)
  else if x.transactionIdDidCommit b.transactionXmin t.xmin then
    vacuumXmax x b oldestXmin (t.setHintBits b .xminCommitted t.xmin)
  else (.dead, t.setHintBits b .xminInvalid invalidTransactionId)

end PgTuning.Access
