import PgTuning.Access.SnapshotStability

/-!
# The history of a tuple

What other transactions can do while a snapshot is in use: start, with or without a parent, write
their outcome to the commit log, leave the `ProcArray`; look at the tuple with any of the routines
of `tqual.c`; and delete, update or lock it (`heapam.c`). A process that finds the tuple being
updated waits, and then decides again from the header as it is. That the inserter had committed it
has seen before.
-/

namespace PgTuning.Access

open PgTuning.Lib HeapTupleHeader Function

/-- What is written to the header of the old version of a tuple. -/
inductive Change where
  | delete (cid : CommandId) (iscombo : Bool)
  | update (cid : CommandId) (iscombo : Bool)
  /-- `multi` is the id of a `MultiXact` that includes the present lockers. -/
  | lock (shared : Bool) (multi : TransactionId)

inductive Wait where
  | xact
  | multi
  /-- It only joins a shared lock. -/
  | shared

namespace HeapTupleHeader

/-- `xmax` is about to be replaced. -/
def clearXmax (t : HeapTupleHeader) : HeapTupleHeader :=
  { t with
    xmaxCommitted := false
    xmaxInvalid := false
    xmaxIsMulti := false
    xmaxExclLock := false
    xmaxSharedLock := false
    movedOff := false
    movedIn := false }

/-- Transaction `xid` has deleted or updated the tuple. -/
def supersede (t : HeapTupleHeader) (xid : TransactionId) (cid : CommandId)
    (iscombo : Bool) : HeapTupleHeader :=
  { t.clearXmax with xmax := xid, field3 := cid, comboCid := iscombo }

/-- The backend holds the desired lock, or a stronger one, already. -/
def holdsLock (t : HeapTupleHeader) (b : Backend) (shared : Bool) : Bool :=
  !(t.xmaxInvalid || t.xmaxCommitted || t.xmaxIsMulti) &&
    (if shared then t.isLocked else t.xmaxExclLock) && b.isCurrent t.xmax

def lock (t : HeapTupleHeader) (x : Xacts) (b : Backend) (xid : TransactionId)
    (shared : Bool) (multi : TransactionId) : HeapTupleHeader :=
  if t.holdsLock b shared then t
  else
    let isMulti := shared && !(t.xmaxInvalid || t.xmaxCommitted) &&
      (t.xmaxIsMulti || x.transactionIdIsInProgress t.xmax)
    { t.clearXmax with
      xmaxSharedLock := shared
      xmaxExclLock := !shared
      xmaxIsMulti := isMulti
      xmax := if isMulti then multi else xid }

def change (t : HeapTupleHeader) (x : Xacts) (b : Backend) (xid : TransactionId) :
    Change → HeapTupleHeader
  | .delete cid iscombo => t.supersede xid cid iscombo
  | .update cid iscombo => t.supersede xid cid iscombo
  | .lock shared multi => t.lock x b xid shared multi

def updateXmaxHintBits (t : HeapTupleHeader) (x : Xacts) (b : Backend) : HeapTupleHeader :=
  if !(t.xmaxCommitted || t.xmaxInvalid) then
    if x.transactionIdDidCommit b.transactionXmin t.xmax then
      t.setHintBits b .xmaxCommitted t.xmax
    else t.setHintBits b .xmaxInvalid invalidTransactionId
  else t

/-- The change at once, if `HeapTupleSatisfiesUpdate` allows it. -/
def modify (t : HeapTupleHeader) (x : Xacts) (b : Backend) (xid : TransactionId)
    (curcid : CommandId) (c : Change) : HeapTupleHeader :=
  let (result, t) := heapTupleSatisfiesUpdate x b curcid t
  if result = .mayBeUpdated then t.change x b xid c else t

/-- The change after waiting. If `xmax` has been replaced meanwhile the process
starts over. -/
def resume (t : HeapTupleHeader) (x : Xacts) (b : Backend) (xid : TransactionId)
    (w : Wait) (c : Change) : HeapTupleHeader :=
  let overwrite := fun t : HeapTupleHeader =>
    if t.xmaxInvalid || t.isLocked then t.change x b xid c else t
  match w with
  | .shared => if t.xmaxSharedLock then overwrite t else t
  | .multi => if t.xmaxIsMulti then overwrite t else t
  | .xact =>
    if t.xmaxIsMulti || x.transactionIdIsInProgress t.xmax then t
    else overwrite (t.updateXmaxHintBits x b)

end HeapTupleHeader

structure State where
  xacts : Xacts
  tuple : HeapTupleHeader

inductive Event where
  /-- A transaction gets an id; `parent` is invalid for a top-level one. -/
  | assign (parent : TransactionId)
  | setStatus (xid : TransactionId) (status : XidStatus)
  | finish (xids : List TransactionId)
  | look (b : Backend) (r : Routine)
  | modify (b : Backend) (xid : TransactionId) (curcid : CommandId) (c : Change)
  | resume (b : Backend) (xid : TransactionId) (w : Wait) (c : Change)

/-- `GetNewTransactionId`: no ids are given out once they might wrap around. -/
def Xacts.assign (x : Xacts) (parent : TransactionId) : Xacts :=
  if transactionIdFollowsOrEquals x.nextXid x.xidStopLimit then x
  else
    { x with
      nextXid := transactionIdAdvance x.nextXid
      status := update x.status x.nextXid .inProgress
      parent := update x.parent x.nextXid parent
      running := update x.running x.nextXid true }

def Xacts.setStatus (x : Xacts) (xid : TransactionId) (status : XidStatus) : Xacts :=
  { x with status := update x.status xid status }

def Xacts.finish (x : Xacts) (xids : List TransactionId) : Xacts :=
  { x with running := fun xid => x.running xid && !xids.contains xid }

def State.step (s : State) : Event → State
  | .assign parent => { s with xacts := s.xacts.assign parent }
  | .setStatus xid status => { s with xacts := s.xacts.setStatus xid status }
  | .finish xids => { s with xacts := s.xacts.finish xids }
  | .look b r => { s with tuple := r.header s.xacts b s.tuple }
  | .modify b xid curcid c => { s with tuple := s.tuple.modify s.xacts b xid curcid c }
  | .resume b xid w c => { s with tuple := s.tuple.resume s.xacts b xid w c }

/-- When an event can happen. Only other transactions write to the commit log and
end. A transaction ends with its outcome in the commit log and with its
subtransactions; a subtransaction that commits ends with its parent. -/
def Allowed (own : TransactionId → Bool) (s : State) : Event → Prop
  | .assign parent => transactionIdIsValid parent = true →
      s.xacts.running parent = true ∧ own parent = false
  | .setStatus xid _ => s.xacts.running xid = true ∧ own xid = false
  | .finish xids =>
    (∀ xid ∈ xids, s.xacts.running xid = true ∧ own xid = false ∧
      (s.xacts.status xid = .committed ∨ s.xacts.status xid = .aborted)) ∧
    (∀ xid, s.xacts.running xid = true → xid ∉ xids → s.xacts.parent xid ∉ xids) ∧
    (∀ xid ∈ xids, s.xacts.status xid = .committed →
      transactionIdIsValid (s.xacts.parent xid) = true →
      s.xacts.parent xid ∈ xids ∧ s.xacts.status (s.xacts.parent xid) = .committed)
  | .look b _ => s.xacts.Runs b ∧ ((∀ xid, b.isCurrent xid = own xid) ∨ b.Other own)
  | .modify b xid _ _ => s.xacts.Runs b ∧ b.Other own ∧ b.isCurrent xid = true
  | .resume b xid _ _ => s.xacts.Runs b ∧ b.Other own ∧ b.isCurrent xid = true ∧
      s.xacts.committed s.tuple.xmin = true ∧
      (s.tuple.movedOff = true ∨ s.tuple.movedIn = true → s.tuple.xminCommitted = true)

/-! ## Transactions come and go -/

section Transactions

variable {x : Xacts} {own : TransactionId → Bool}

theorem assigned_advance (hx : x.WellFormed)
    (hLimit : transactionIdFollowsOrEquals x.nextXid x.xidStopLimit = false) :
    transactionIdIsNormal (transactionIdAdvance x.nextXid) ∧
      x.age x.nextXid < x.age (transactionIdAdvance x.nextXid) ∧
      x.age (transactionIdAdvance x.nextXid) < 2147483648 ∧
      ∀ xid, transactionIdIsNormal xid →
        x.age xid < x.age (transactionIdAdvance x.nextXid) →
        x.age xid ≤ x.age x.nextXid := by
  have hNormal := hx.next
  have hWindow := hx.window
  obtain ⟨hStopNormal, hStop⟩ := hx.stopLimit
  have hBefore : x.age x.nextXid < x.age x.xidStopLimit := by
    by_contra hGe
    have := (followsOrEquals_iff_age hNormal hStopNormal hWindow (by omega)).mpr (by omega)
    exact ne_true_of_eq_false hLimit this
  unfold Xacts.age at *
  unfold transactionIdAdvance
  simp only [transactionIdIsNormal, decide_eq_true_eq] at *
  split
  case isTrue hWrap =>
    refine ⟨by decide, by bv_omega, by bv_omega, ?_⟩
    bv_omega
  case isFalse hNoWrap =>
    refine ⟨by omega, by bv_omega, by bv_omega, ?_⟩
    bv_omega

theorem age_injective {a b : TransactionId} (h : x.age a = x.age b) : a = b := by
  unfold Xacts.age at h
  bv_omega

theorem assigned_ne_next {xid : TransactionId} (h : x.Assigned xid) : xid ≠ x.nextXid := by
  intro hEq
  have hAge := h.2
  rw [hEq] at hAge
  omega

/-- An id that was over keeps its outcome, and so does its parent. -/
theorem Xacts.Later.over {x' : Xacts} {y : TransactionId} {status : XidStatus}
    (h : x.Later x' own) (hx : x.WellFormed) (hWas : x.Assigned y) (hOver : x.running y = false)
    (P : XidStatus → Prop) (hParent : x.status y = status → transactionIdIsValid (x.parent y) →
      x.running (x.parent y) = false ∧ P (x.status (x.parent y)))
    (hStatus : x'.status y = status) (hValid : transactionIdIsValid (x'.parent y)) :
    x'.running (x'.parent y) = false ∧ P (x'.status (x'.parent y)) := by
  rw [(h.ended y hWas hOver).2] at hStatus
  rw [h.parent y hWas] at hValid ⊢
  obtain ⟨hRun, hAlso⟩ := hParent hStatus hValid
  obtain ⟨hRun', hSame⟩ := h.ended _ (hx.parent y hWas hValid).1 hRun
  exact ⟨hRun', hSame ▸ hAlso⟩

/-- `x'` is `x` after the next id was given to a transaction with this parent. -/
structure Started (x x' : Xacts) (parent : TransactionId) : Prop where
  below : transactionIdFollowsOrEquals x.nextXid x.xidStopLimit = false
  oldest : x'.oldestXid = x.oldestXid
  next : x'.nextXid = transactionIdAdvance x.nextXid
  stop : x'.xidStopLimit = x.xidStopLimit
  others : ∀ y, y ≠ x.nextXid → x'.parent y = x.parent y ∧ x'.running y = x.running y ∧
    x'.status y = x.status y
  new : x'.parent x.nextXid = parent ∧ x'.running x.nextXid = true

theorem assign_started (x : Xacts) (parent : TransactionId) :
    x.assign parent = x ∨ Started x (x.assign parent) parent := by
  unfold Xacts.assign
  split_ifs with hLimit
  · exact .inl rfl
  · exact .inr ⟨by simpa using hLimit, rfl, rfl, rfl, fun y hNe =>
      ⟨update_of_ne hNe _ _, update_of_ne hNe _ _, update_of_ne hNe _ _⟩,
      update_self _ _ _, update_self _ _ _⟩

variable (hx : x.WellFormed)

namespace Started

variable {x' : Xacts} {parent y : TransactionId} (h : Started x x' parent)
include h

theorem age (y : TransactionId) : x'.age y = x.age y := by
  unfold Xacts.age
  rw [h.oldest]

theorem kept (hWas : x.Assigned y) :
    x'.parent y = x.parent y ∧ x'.running y = x.running y ∧ x'.status y = x.status y :=
  h.others y (assigned_ne_next hWas)

include hx

theorem assigned : x'.Assigned y ↔ x.Assigned y ∨ y = x.nextXid := by
  obtain ⟨-, hLt, -, hBetween⟩ := assigned_advance hx h.below
  unfold Xacts.Assigned
  rw [h.next, h.age, h.age]
  constructor
  · intro ⟨hY, hYounger⟩
    by_cases hEq : x.age y = x.age x.nextXid
    · exact .inr (age_injective hEq)
    · have := hBetween y hY hYounger
      exact .inl ⟨hY, by omega⟩
  · rintro (hWas | rfl)
    · exact ⟨hWas.1, by have := hWas.2; omega⟩
    · exact ⟨hx.next, hLt⟩

/-- An assigned id that is not running is an old one. -/
theorem ended (hY : x'.Assigned y) (hRun : x'.running y = false) :
    x.Assigned y ∧ x.running y = false := by
  rcases (h.assigned hx).mp hY with hWas | rfl
  · exact ⟨hWas, (h.kept hWas).2.1 ▸ hRun⟩
  · exact absurd h.new.2 (ne_true_of_eq_false hRun)

theorem later (hOwn : ∀ xid, own xid → x.running xid) : x.Later x' own where
  oldest := h.oldest
  next := by
    rw [h.next]
    exact (assigned_advance hx h.below).2.1.le
  parent y hWas := (h.kept hWas).1
  ended y hWas hRun := by
    rw [(h.kept hWas).2.1, (h.kept hWas).2.2]
    exact ⟨hRun, rfl⟩
  own y hMine := by
    have hRun := hOwn y hMine
    rw [(h.kept (hx.running y hRun)).2.1]
    exact hRun

theorem running (hRun : x'.running y) : x'.Assigned y := by
  refine (h.assigned hx).mpr ?_
  by_cases hEq : y = x.nextXid
  · exact .inr hEq
  · rw [(h.others y hEq).2.1] at hRun
    exact .inl (hx.running y hRun)

variable (hParent : transactionIdIsValid parent → x.running parent)
include hParent

theorem parent_assigned (hY : x'.Assigned y) (hValid : transactionIdIsValid (x'.parent y)) :
    x'.Assigned (x'.parent y) ∧ x'.age (x'.parent y) < x'.age y := by
  rw [h.age, h.age]
  rcases (h.assigned hx).mp hY with hWas | rfl
  · rw [(h.kept hWas).1] at hValid ⊢
    obtain ⟨hAbove, hYounger⟩ := hx.parent y hWas hValid
    exact ⟨(h.assigned hx).mpr (.inl hAbove), hYounger⟩
  · rw [h.new.1] at hValid ⊢
    have hAbove := hx.running parent (hParent hValid)
    exact ⟨(h.assigned hx).mpr (.inl hAbove), hAbove.2⟩

theorem parent_running (hRun : x'.running y) (hValid : transactionIdIsValid (x'.parent y)) :
    x'.running (x'.parent y) := by
  have hKept : ∀ {y}, x.running y → x'.running y :=
    fun hRun => (h.kept (hx.running _ hRun)).2.1.trans hRun
  by_cases hEq : y = x.nextXid
  · rw [hEq, h.new.1] at hValid ⊢
    exact hKept (hParent hValid)
  · rw [(h.others y hEq).2.1] at hRun
    rw [(h.others y hEq).1] at hValid ⊢
    exact hKept (hx.parent_running y hRun hValid)

theorem wellFormed : x'.WellFormed := by
  have hLater : x.Later x' fun _ => false := h.later hx nofun
  obtain ⟨hNormal, -, hWindow, -⟩ := assigned_advance hx h.below
  refine ⟨h.next ▸ hNormal, ?_, ?_, fun _ => h.running hx, fun _ => h.parent_assigned hx hParent,
    fun _ => h.parent_running hx hParent, fun y hY hRun => ?_, fun y hY hRun => ?_⟩
  · rw [h.next, h.age]
    exact hWindow
  · rw [h.stop, h.age]
    exact hx.stopLimit
  · obtain ⟨hWas, hRun⟩ := h.ended hx hY hRun
    exact hLater.over hx hWas hRun (· = .committed) (hx.parent_committed y hWas hRun)
  · obtain ⟨hWas, hRun⟩ := h.ended hx hY hRun
    exact hLater.over hx hWas hRun (· ≠ .committed) (hx.crashed y hWas hRun)

end Started

variable (hOwn : ∀ xid, own xid = true → x.running xid = true)
include hx hOwn

theorem assign_later {parent : TransactionId}
    (hParent : transactionIdIsValid parent → x.running parent) :
    (x.assign parent).WellFormed ∧ x.Later (x.assign parent) own := by
  rcases assign_started x parent with hSame | h
  · rw [hSame]
    exact ⟨hx, rfl, le_rfl, fun _ _ => rfl, fun _ _ hRun => ⟨hRun, rfl⟩, hOwn⟩
  · exact ⟨h.wellFormed hx hParent, h.later hx hOwn⟩

theorem setStatus_later {xid : TransactionId} (hRun : x.running xid) (status : XidStatus) :
    (x.setStatus xid status).WellFormed ∧ x.Later (x.setStatus xid status) own := by
  have hSame : ∀ y, x.running y = false → update x.status xid status y = x.status y := by
    intro y hOver
    refine update_of_ne (fun hEq => ?_) _ _
    rw [hEq] at hOver
    exact ne_true_of_eq_false hOver hRun
  have hLater : x.Later (x.setStatus xid status) own :=
    ⟨rfl, le_rfl, fun _ _ => rfl, fun y _ hOver => ⟨hOver, hSame y hOver⟩, hOwn⟩
  refine ⟨{ hx with parent_committed := ?_, crashed := ?_ }, hLater⟩
  · intro y hWas hOver
    exact hLater.over hx hWas hOver (· = .committed) (hx.parent_committed y hWas hOver)
  · intro y hWas hOver
    exact hLater.over hx hWas hOver (· ≠ .committed) (hx.crashed y hWas hOver)

theorem finish_later {xids : List TransactionId}
    (hOver : ∀ xid ∈ xids, x.running xid ∧ own xid = false ∧
      (x.status xid = .committed ∨ x.status xid = .aborted))
    (hChildren : ∀ xid, x.running xid → xid ∉ xids → x.parent xid ∉ xids)
    (hParents : ∀ xid ∈ xids, x.status xid = .committed →
      transactionIdIsValid (x.parent xid) →
      x.parent xid ∈ xids ∧ x.status (x.parent xid) = .committed) :
    (x.finish xids).WellFormed ∧ x.Later (x.finish xids) own := by
  have hRunning : ∀ xid, (x.finish xids).running xid ↔
      x.running xid ∧ xid ∉ xids := by
    simp [Xacts.finish]
  have hStopped : ∀ xid, (x.finish xids).running xid = false ↔
      x.running xid = false ∨ xid ∈ xids := by
    intro xid
    rw [← Bool.not_eq_true, hRunning, ← Bool.not_eq_true]
    tauto
  have hLater : x.Later (x.finish xids) own := by
    refine ⟨rfl, le_rfl, fun _ _ => rfl, fun y _ hDone => ⟨(hStopped y).mpr (.inl hDone), rfl⟩, ?_⟩
    intro y hMine
    exact (hRunning y).mpr ⟨hOwn y hMine, fun hMem =>
      ne_true_of_eq_false (hOver y hMem).2.1 hMine⟩
  refine ⟨⟨hx.next, hx.window, hx.stopLimit, ?_, hx.parent, ?_, ?_, ?_⟩, hLater⟩
  · exact fun y hRun => hx.running y ((hRunning y).mp hRun).1
  · intro y hRun hValid
    obtain ⟨hRun, hNot⟩ := (hRunning y).mp hRun
    exact (hRunning _).mpr ⟨hx.parent_running y hRun hValid, hChildren y hRun hNot⟩
  · intro y hWas hDone hStatus hValid
    cases (hStopped y).mp hDone with
    | inl hOld =>
      exact hLater.over hx hWas hOld (· = .committed)
        (hx.parent_committed y hWas hOld) hStatus hValid
    | inr hMem =>
      obtain ⟨hAbove, hAlso⟩ := hParents y hMem hStatus hValid
      exact ⟨(hStopped _).mpr (.inr hAbove), hAlso⟩
  · intro y hWas hDone hStatus hValid
    have hStatus : x.status y = .subCommitted := hStatus
    cases (hStopped y).mp hDone with
    | inl hOld =>
      exact hLater.over hx hWas hOld (· ≠ .committed) (hx.crashed y hWas hOld)
        hStatus hValid
    | inr hMem =>
      obtain ⟨-, -, hFinal⟩ := hOver y hMem
      rw [hStatus] at hFinal
      cases hFinal with
      | inl hEq => cases hEq
      | inr hEq => cases hEq

end Transactions

/-! ## Changes of the tuple -/

/-- `xmax` may be replaced: nobody has deleted the tuple, and its inserter is the
backend's own transaction or has committed. -/
structure Overwritable (x : Xacts) (b : Backend) (t : HeapTupleHeader) : Prop where
  deleter : t.deleter = none
  inserter : (b.isCurrent t.xmin = true ∧ t.movedOff = false ∧ t.movedIn = false) ∨
    (x.committed t.xmin = true ∧
      (t.movedOff = true ∨ t.movedIn = true → t.xminCommitted = true))

section Changes

variable {x₀ x : Xacts} {s : Snapshot} {b c : Backend} {t t' : HeapTupleHeader}
  {own : TransactionId → Bool}

theorem checkXmax_mayBeUpdated {ownDeleted : HtsuResult} (hOwn : ownDeleted ≠ .mayBeUpdated)
    {multi : HeapTupleHeader → HtsuResult × HeapTupleHeader}
    (hMulti : (multi t).1 = .mayBeUpdated → (multi t).2.deleter = none)
    (h : (checkXmax x b .mayBeUpdated .updated ownDeleted .beingUpdated multi t).1 =
      .mayBeUpdated) :
    (checkXmax x b .mayBeUpdated .updated ownDeleted .beingUpdated multi t).2.deleter =
      none := by
  revert h
  unfold checkXmax
  split_ifs with hInvalid _ hLocked _ _ hLocked
  · exact fun _ => deleter_of_invalid hInvalid
  · exact fun _ => deleter_of_locked hLocked
  · exact fun h => by cases h
  · exact hMulti
  · exact fun _ => deleter_of_locked hLocked
  · exact fun h => absurd h hOwn
  · exact fun h => by cases h
  · exact fun _ => deleter_withHint_xmaxInvalid t
  · exact fun _ => deleter_withHint_xmaxInvalid t
  · exact fun h => by cases h

theorem checkOwnXmax_mayBeUpdated {deleted : HtsuResult} (hDeleted : deleted ≠ .mayBeUpdated)
    (h : (checkOwnXmax b t .mayBeUpdated deleted).1 = .mayBeUpdated) :
    (checkOwnXmax b t .mayBeUpdated deleted).2.deleter = none := by
  revert h
  unfold checkOwnXmax
  split_ifs with hInvalid hLocked
  · exact fun _ => deleter_of_invalid hInvalid
  · exact fun _ => deleter_of_locked hLocked
  · exact fun _ => deleter_withHint_xmaxInvalid t
  · exact fun h => absurd h hDeleted

theorem overwritable_of_mayBeUpdated (hx : x.WellFormed) (ht : t.Sound x own) (hRuns : x.Runs b)
    {curcid : CommandId} (h : (heapTupleSatisfiesUpdate x b curcid t).1 = .mayBeUpdated) :
    Overwritable x b (heapTupleSatisfiesUpdate x b curcid t).2 := by
  have hLater : ∀ t : HeapTupleHeader, (if curcid.toNat ≤ (t.cmax b).toNat then
      HtsuResult.selfUpdated else .invisible) ≠ .mayBeUpdated := by
    intro t
    split <;> simp
  have hHinted : Hinted x b t (heapTupleSatisfiesUpdate x b curcid t).2 :=
    Routine.hinted hx ht hRuns (.update curcid)
  obtain ⟨hXmin, hOff, hIn, -⟩ := hHinted.same
  revert h hXmin hOff hIn
  refine checkXmin_elim (motive := fun r => r.1 = HtsuResult.mayBeUpdated → r.2.xmin = t.xmin →
    r.2.movedOff = t.movedOff → r.2.movedIn = t.movedIn → Overwritable x b r.2) hx ht hRuns ?_ ?_ ?_
  · intro t' _ hDone _ hBit h hXmin hOff hIn
    refine ⟨checkXmax_mayBeUpdated (hLater t') ?_ h, .inr ⟨by rw [hXmin]; exact hDone, ?_⟩⟩
    · split
      · exact fun h => by cases h
      · intro _
        exact deleter_withHint_xmaxInvalid t'
    · rw [hOff, hIn]
      intro hMoved
      refine Hinted.keeps_xminCommitted (x := x) (b := b) ?_ (hBit hMoved)
      refine checkXmax_hinted .refl fun hMulti => ?_
      split
      · exact .refl
      · exact Hinted.refl.setHintBits .xmaxInvalid invalidTransactionId
          (.inl (deleter_of_multi hMulti))
  · rintro ⟨-, hNotOff, hNotIn, hMine⟩ h hXmin hOff hIn
    refine ⟨?_, .inl ⟨by rw [hXmin]; exact hMine, hOff.trans hNotOff, hIn.trans hNotIn⟩⟩
    revert h
    split
    · exact fun h => by cases h
    · exact checkOwnXmax_mayBeUpdated (hLater t)
  · intro r t' hr _ _ _ h
    rw [or_self_iff.mp hr] at h
    cases h

/-- `t'` is `t` with `xmax` replaced by transaction `xid`, or a lock. -/
structure Replaced (t t' : HeapTupleHeader) (xid : TransactionId) : Prop where
  xmin : t'.xmin = t.xmin
  xminCommitted : t'.xminCommitted = t.xminCommitted
  xminInvalid : t'.xminInvalid = t.xminInvalid
  movedOff : t'.movedOff = false
  movedIn : t'.movedIn = false
  xmaxCommitted : t'.xmaxCommitted = false
  multi : t'.xmaxIsMulti = true → t'.isLocked = true
  deleter : ∀ y, t'.deleter = some y → y = xid

theorem supersede_replaced (t : HeapTupleHeader) (xid : TransactionId) (cid : CommandId)
    (iscombo : Bool) : Replaced t (t.supersede xid cid iscombo) xid where
  xmin := rfl
  xminCommitted := rfl
  xminInvalid := rfl
  movedOff := rfl
  movedIn := rfl
  xmaxCommitted := rfl
  multi hMulti := by cases hMulti
  deleter y hDel := by
    simpa [deleter, isLocked, supersede, clearXmax, eq_comm] using hDel

theorem change_replaced (t : HeapTupleHeader) (x : Xacts) (b : Backend) (xid : TransactionId)
    (c : Change) : t.change x b xid c = t ∨ Replaced t (t.change x b xid c) xid := by
  cases c with
  | delete cid iscombo => exact .inr (supersede_replaced t xid cid iscombo)
  | update cid iscombo => exact .inr (supersede_replaced t xid cid iscombo)
  | lock shared multi =>
    show t.lock x b xid shared multi = t ∨ Replaced t (t.lock x b xid shared multi) xid
    unfold HeapTupleHeader.lock
    split
    · exact .inl rfl
    · refine .inr ⟨rfl, rfl, rfl, rfl, rfl, rfl, fun _ => ?_, fun y hDel => ?_⟩
      · cases shared <;> rfl
      · cases shared <;> simp [deleter, isLocked] at hDel

theorem Overwritable.not_own (h : Overwritable x b t) (hx : x.WellFormed)
    (hOwn : ∀ xid, own xid → x.running xid) (hOther : b.Other own) : own t.xmin = false := by
  refine Bool.eq_false_iff.mpr fun hTrue => ?_
  cases h.inserter with
  | inl hMine => exact ne_true_of_eq_false (hOther _ hTrue) hMine.1
  | inr hDone => exact ne_true_of_eq_false (hx.not_running hDone.1) (hOwn _ hTrue)

variable {xid : TransactionId} (h : Replaced t t' xid)
include h

theorem Replaced.sound (hx : x.WellFormed)
    (ht : t.Sound x own) (hFree : Overwritable x b t) (hRuns : x.Runs b)
    (hOwn : ∀ xid, own xid → x.running xid) (hOther : b.Other own)
    (hXid : b.isCurrent xid) : t'.Sound x own := by
  have hPlace : t'.inPlace x := by simp [inPlace, h.movedOff, h.movedIn]
  have hNotMoved : ¬(t'.movedOff ∨ t'.movedIn) := by
    simp [h.movedOff, h.movedIn]
  refine ⟨?_, ?_, fun hMoved => absurd hMoved hNotMoved, ?_, ?_, ?_, ?_, h.multi⟩
  · rw [h.xmin]
    exact ht.xmin
  · intro y hDel
    rw [h.deleter y hDel]
    exact .inr (hx.running xid (hRuns xid hXid))
  · rw [h.xminCommitted, h.xmin]
    exact fun hBit => ⟨(ht.xminCommitted hBit).1, hPlace⟩
  · rw [h.xminInvalid, h.xminCommitted, h.xmin]
    intro hBit hNot
    obtain ⟨hRun, hGone⟩ := ht.xminInvalid hBit hNot
    refine ⟨hRun, .inl ?_⟩
    cases hFree.inserter with
    | inl hMine => exact absurd (hRuns _ hMine.1) (ne_true_of_eq_false hRun)
    | inr hDone =>
      -- The inserter has committed: then the tuple was moved, and it is known where.
      refine hGone.resolve_right fun hAway => ?_
      have hMoved : t.movedOff ∨ t.movedIn := by
        by_contra hNone
        push Not at hNone
        simp [inPlace, hNone.1, hNone.2] at hAway
      exact ne_true_of_eq_false hNot (hDone.2 hMoved)
  · exact fun hBit => absurd hBit (ne_true_of_eq_false h.xmaxCommitted)
  · rw [h.xmin]
    exact fun hMine => absurd hMine (ne_true_of_eq_false (hFree.not_own hx hOwn hOther))

theorem Replaced.visibleAsOf
    (hWatch : Watching x₀ x c s) (ht : t.Sound x c.isCurrent) (hFree : Overwritable x b t)
    (hMoved : t.movedOff ∨ t.movedIn → x₀.Known t.xvac ∧ x₀.running t.xvac = false)
    (hRuns : x.Runs b) (hOther : b.Other c.isCurrent) (hXid : b.isCurrent xid) :
    t'.visibleAsOf x₀ c s = t.visibleAsOf x₀ c s := by
  have hMine := hFree.not_own hWatch.now hWatch.later.own hOther
  have hPlace : t.inPlace x₀ := by
    rw [← inPlace_later hWatch.later hMoved]
    by_cases hFlag : t.movedOff ∨ t.movedIn
    · cases hFree.inserter with
      | inl hNot => simp [hNot.2.1, hNot.2.2] at hFlag
      | inr hDone => exact (ht.xminCommitted (hDone.2 hFlag)).2
    · push Not at hFlag
      simp [inPlace, hFlag.1, hFlag.2]
  have hPlace' : t'.inPlace x₀ := by simp [inPlace, h.movedOff, h.movedIn]
  have hInserted : t'.insertedAsOf x₀ c s = t.insertedAsOf x₀ c s := by
    simp [insertedAsOf, hPlace, hPlace', h.xmin, hMine]
  have hDeleted : t.deletedAsOf x₀ c s = false := by simp [deletedAsOf, hFree.deleter]
  have hDeleted' : t'.deletedAsOf x₀ c s = false := by
    cases hDel : t'.deleter with
    | none => simp [deletedAsOf, hDel]
    | some y =>
      have hNot := hWatch.later.not_committed hWatch.now (hRuns xid hXid)
      have hNotOwn : c.isCurrent xid = false := Bool.eq_false_iff.mpr fun hTrue =>
        ne_true_of_eq_false (hOther xid hTrue) hXid
      rw [h.deleter y hDel] at hDel
      simp [deletedAsOf, hDel, hNot, hNotOwn]
  unfold HeapTupleHeader.visibleAsOf
  rw [hInserted, hDeleted, hDeleted']

end Changes

/-! ## Every history -/

/-- What holds in every state of a history while backend `b` uses its snapshot `snap`: `start` has
the transactions as of the snapshot, and the tuple as the history begins. -/
structure Inv (start : State) (b : Backend) (snap : Snapshot) (s : State) : Prop where
  watching : Watching start.xacts s.xacts b snap
  sound : s.tuple.Sound s.xacts b.isCurrent
  moved : s.tuple.movedOff = true ∨ s.tuple.movedIn = true →
    start.xacts.Known s.tuple.xvac ∧ start.xacts.running s.tuple.xvac = false
  visible : s.tuple.visibleAsOf start.xacts b snap =
    start.tuple.visibleAsOf start.xacts b snap

section Histories

variable {start s : State} {b c : Backend} {snap : Snapshot}

theorem Inv.xacts (h : Inv start b snap s) {x' : Xacts}
    (hStep : x'.WellFormed ∧ s.xacts.Later x' b.isCurrent) :
    Inv start b snap { s with xacts := x' } :=
  { h with
    watching := { h.watching with now := hStep.1, later := h.watching.later.trans hStep.2 }
    sound := h.sound.later hStep.1 hStep.2 }

theorem Inv.hinted (h : Inv start b snap s) (hRuns : s.xacts.Runs c)
    (hSides : (∀ xid, c.isCurrent xid = b.isCurrent xid) ∨ c.Other b.isCurrent)
    {t' : HeapTupleHeader} (hHinted : Hinted s.xacts c s.tuple t') :
    Inv start b snap { s with tuple := t' } where
  watching := h.watching
  sound := h.sound.hinted h.watching.now hHinted
  moved := by
    obtain ⟨-, hOff, hIn, hField⟩ := hHinted.same
    have hXvac : t'.xvac = s.tuple.xvac := by simp [xvac, hOff, hIn, hField]
    rw [hOff, hIn, hXvac]
    exact h.moved
  visible := (visibleAsOf_hinted h.watching h.sound hRuns hSides hHinted).trans h.visible

theorem Inv.ite {p : Prop} [Decidable p] {t t' : HeapTupleHeader}
    (hThen : p → Inv start b snap { s with tuple := t })
    (hElse : ¬p → Inv start b snap { s with tuple := t' }) :
    Inv start b snap { s with tuple := if p then t else t' } := by
  split_ifs with hp
  · exact hThen hp
  · exact hElse hp

theorem updateXmaxHintBits_hinted {x : Xacts} {t : HeapTupleHeader}
    (hRun : ¬x.running t.xmax) : Hinted x c t (t.updateXmaxHintBits x c) := by
  unfold HeapTupleHeader.updateXmaxHintBits
  split_ifs with _ hDid
  · exact Hinted.refl.xmaxDone hRun hDid
  · exact Hinted.refl.xmaxAborted hRun hDid
  · exact .refl

section Writing

variable {xid : TransactionId} (h : Inv start b snap s) (hRuns : s.xacts.Runs c)
  (hOther : c.Other b.isCurrent) (hXid : c.isCurrent xid = true)
include h hRuns hOther hXid

theorem Inv.change (hFree : Overwritable s.xacts c s.tuple) (ch : Change) :
    Inv start b snap { s with tuple := s.tuple.change s.xacts c xid ch } := by
  cases change_replaced s.tuple s.xacts c xid ch with
  | inl hSame =>
    rw [hSame]
    exact h
  | inr hNew =>
    exact ⟨h.watching,
      hNew.sound h.watching.now h.sound hFree hRuns h.watching.later.own hOther hXid,
      fun hMoved => absurd hMoved (by simp [hNew.movedOff, hNew.movedIn]),
      (hNew.visibleAsOf h.watching h.sound hFree h.moved hRuns hOther hXid).trans h.visible⟩

theorem Inv.modify (curcid : CommandId) (ch : Change) :
    Inv start b snap { s with tuple := s.tuple.modify s.xacts c xid curcid ch } := by
  have hHinted := h.hinted hRuns (.inr hOther)
    (Routine.hinted h.watching.now h.sound hRuns (.update curcid))
  refine .ite (fun hMay => ?_) fun _ => hHinted
  exact hHinted.change hRuns hOther hXid
    (overwritable_of_mayBeUpdated h.watching.now h.sound hRuns hMay) ch

variable (hSeen : s.xacts.committed s.tuple.xmin = true ∧
  (s.tuple.movedOff = true ∨ s.tuple.movedIn = true → s.tuple.xminCommitted = true))
include hSeen

/-- What a process does after it has waited. -/
theorem Inv.overwrite (ch : Change) :
    Inv start b snap { s with
      tuple := if s.tuple.xmaxInvalid || s.tuple.isLocked then s.tuple.change s.xacts c xid ch
        else s.tuple } := by
  refine .ite (fun hFree => ?_) fun _ => h
  have hNone : s.tuple.deleter = none := by
    simp only [Bool.or_eq_true] at hFree
    cases hFree with
    | inl hInvalid => exact deleter_of_invalid hInvalid
    | inr hLocked => exact deleter_of_locked hLocked
  exact h.change hRuns hOther hXid ⟨hNone, .inr hSeen⟩ ch

theorem Inv.resume (w : Wait) (ch : Change) :
    Inv start b snap { s with tuple := s.tuple.resume s.xacts c xid w ch } := by
  have hOverwrite := h.overwrite hRuns hOther hXid hSeen ch
  cases w with
  | shared => exact .ite (fun _ => hOverwrite) fun _ => h
  | multi => exact .ite (fun _ => hOverwrite) fun _ => h
  | xact =>
    refine .ite (fun _ => h) fun hAgain => ?_
    simp only [Bool.or_eq_true, not_or] at hAgain
    have hHinted := updateXmaxHintBits_hinted (c := c) hAgain.2
    obtain ⟨hXmin, hOff, hIn, -⟩ := hHinted.same
    refine (h.hinted hRuns (.inr hOther) hHinted).overwrite hRuns hOther hXid ⟨?_, ?_⟩ ch
    · rw [hXmin]
      exact hSeen.1
    · intro hMoved
      refine hHinted.keeps_xminCommitted (hSeen.2 ?_)
      rw [← hOff, ← hIn]
      exact hMoved

end Writing

theorem Inv.step (h : Inv start b snap s) (e : Event) (hAllowed : Allowed b.isCurrent s e) :
    Inv start b snap (s.step e) := by
  have hNow := h.watching.now
  have hOwn := h.watching.later.own
  cases e with
  | assign parent =>
    exact h.xacts (assign_later hNow hOwn fun hValid => (hAllowed hValid).1)
  | setStatus xid status => exact h.xacts (setStatus_later hNow hOwn hAllowed.1 status)
  | finish xids =>
    exact h.xacts (finish_later hNow hOwn hAllowed.1 hAllowed.2.1 hAllowed.2.2)
  | look c r =>
    exact h.hinted hAllowed.1 hAllowed.2 (r.hinted hNow h.sound hAllowed.1)
  | modify c xid curcid ch =>
    exact h.modify hAllowed.1 hAllowed.2.1 hAllowed.2.2 curcid ch
  | resume c xid w ch =>
    exact h.resume hAllowed.1 hAllowed.2.1 hAllowed.2.2.1 hAllowed.2.2.2 w ch

end Histories

theorem visibleAsOf_congr {b b' : Backend} (hCurrent : b'.isCurrent = b.isCurrent)
    (hCombo : b'.combo = b.combo) (t : HeapTupleHeader) (x : Xacts) (snap : Snapshot) :
    t.visibleAsOf x b' snap = t.visibleAsOf x b snap := by
  have hCmin : t.cmin b' = t.cmin b := by simp [cmin, hCombo]
  have hCmax : t.cmax b' = t.cmax b := by simp [cmax, hCombo]
  unfold visibleAsOf insertedAsOf deletedAsOf
  rw [hCurrent, hCmin, hCmax]

/-- **A snapshot is stable.**  In every state of every history of other transactions
`HeapTupleSatisfiesMVCC` answers as of the moment at which the snapshot was taken. The history of
the tuple may begin later, with a transaction that the snapshot has never heard of. -/
theorem heapTupleSatisfiesMVCC_stable {x₀ : Xacts} {start : State} {b : Backend} {snap : Snapshot}
    (hWatch : Watching x₀ start.xacts b snap) (ht : start.tuple.Sound start.xacts b.isCurrent)
    (hMoved : start.tuple.movedOff = true ∨ start.tuple.movedIn = true →
      x₀.Known start.tuple.xvac ∧ x₀.running start.tuple.xvac = false) (run : List Event)
    (hRun : AllSteps State.step (Allowed b.isCurrent) start run) :
    ∀ s ∈ states State.step start run, ∀ b' : Backend, b'.isCurrent = b.isCurrent →
      b'.combo = b.combo →
      transactionIdIsNormal b'.transactionXmin = true ∧
        x₀.age b'.transactionXmin ≤ x₀.age snap.xmin →
      (heapTupleSatisfiesMVCC s.xacts b' snap s.tuple).1 = start.tuple.visibleAsOf x₀ b snap := by
  intro s hs b' hCurrent hCombo hXmin'
  have hStep : ∀ s e, Inv ⟨x₀, start.tuple⟩ b snap s → Allowed b.isCurrent s e →
      Inv ⟨x₀, start.tuple⟩ b snap (s.step e) := fun s e hI hOk => hI.step e hOk
  have hInv := invariant_of_allSteps hStep run start ⟨hWatch, ht, hMoved, rfl⟩ hRun s hs
  have hNow : Watching x₀ s.xacts b' snap :=
    { hInv.watching with
      later := by rw [hCurrent]; exact hInv.watching.later
      snapshot := by rw [hCurrent]; exact hWatch.snapshot
      xmin := hXmin' }
  rw [heapTupleSatisfiesMVCC_value hNow (by rw [hCurrent]; exact hInv.sound) hInv.moved,
    visibleAsOf_congr hCurrent hCombo, hInv.visible]

/-! A tuple inserted by transaction 5; transaction 7 deletes it and commits while
transaction 8 uses its snapshot. -/

def lateDeleteBackend (xid : TransactionId) : Backend where
  isCurrent y := y == xid
  transactionXmin := 7
  currentCommandId := 0
  combo cid := (cid, cid)
  needsFlush _ := false
  multiRunning _ := false

def lateDeleteStart : State where
  xacts :=
    { oldestXid := 3
      nextXid := 9
      xidStopLimit := 2000000000
      status := fun xid => if xid = 5 then .committed else .inProgress
      parent := fun _ => invalidTransactionId
      running := fun xid => xid == 7 || xid == 8 }
  tuple :=
    { xmin := 5, xmax := 0, field3 := 0, comboCid := false, xmaxExclLock := false,
      xmaxSharedLock := false, xminCommitted := false, xminInvalid := false,
      xmaxCommitted := false, xmaxInvalid := true, xmaxIsMulti := false,
      movedOff := false, movedIn := false }

def lateDeleteSnapshot : Snapshot where
  xmin := 7
  xmax := 8
  xip := [7]
  subxip := []
  suboverflowed := false
  takenDuringRecovery := false
  curcid := 1

def lateDelete : List Event :=
  [.modify (lateDeleteBackend 7) 7 1 (.delete 0 false), .setStatus 7 .committed, .finish [7],
    .look (lateDeleteBackend 8) .now]

theorem lateDelete_running {xid : TransactionId}
    (hRun : lateDeleteStart.xacts.running xid) : xid = 7 ∨ xid = 8 := by
  simpa [lateDeleteStart] using hRun

theorem lateDelete_current {xid n : TransactionId}
    (h : (lateDeleteBackend n).isCurrent xid) : xid = n := by
  simpa [lateDeleteBackend] using h

theorem lateDelete_wellFormed : lateDeleteStart.xacts.WellFormed where
  next := by decide
  window := by decide
  stopLimit := by decide
  running xid hRun := by
    cases lateDelete_running hRun with
    | inl hEq => subst hEq; decide
    | inr hEq => subst hEq; decide
  parent _ _ hValid := by cases hValid
  parent_running _ _ hValid := by cases hValid
  parent_committed _ _ _ _ hValid := by cases hValid
  crashed _ _ _ _ hValid := by cases hValid

theorem lateDelete_sound :
    lateDeleteStart.tuple.Sound lateDeleteStart.xacts (lateDeleteBackend 8).isCurrent where
  xmin := .inr (by decide)
  xmax _ hDel := by cases hDel
  moved hMoved := by simp [lateDeleteStart] at hMoved
  xminCommitted hBit := by cases hBit
  xminInvalid hBit := by cases hBit
  xmaxCommitted hBit := by cases hBit
  own _ _ hDel := by cases hDel
  multi hMulti := by cases hMulti

theorem lateDelete_takenAt :
    lateDeleteSnapshot.TakenAt lateDeleteStart.xacts (lateDeleteBackend 8).isCurrent where
  normal := by decide
  ordered := by decide
  older xid hAssigned hAge := by
    by_contra hRun
    cases lateDelete_running (by simpa using hRun) with
    | inl hEq => subst hEq; exact absurd hAge (by decide)
    | inr hEq => subst hEq; exact absurd hAge (by decide)
  newer xid hAssigned hAge := by
    have hNe : xid ≠ 5 := by
      intro hEq
      subst hEq
      exact absurd hAge (by decide)
    by_contra hTrue
    have hStatus := ((Xacts.committed_normal hAssigned.1).mp (by simpa using hTrue)).2.2
    have hStatus : (if xid = 5 then XidStatus.committed else .inProgress) = .committed := hStatus
    rw [if_neg hNe] at hStatus
    cases hStatus
  listed xid hMem := by
    have hEq : xid = 7 := by simpa [lateDeleteSnapshot, Snapshot.searched] using hMem
    subst hEq
    decide
  complete xid hRun hNotOwn _ _ _ := by
    cases lateDelete_running hRun with
    | inl hEq => subst hEq; decide
    | inr hEq => subst hEq; cases hNotOwn

theorem lateDelete_runs : lateDeleteStart.xacts.Runs (lateDeleteBackend 8) := by
  intro xid hCurrent
  rw [lateDelete_current hCurrent]
  decide

theorem lateDelete_watching : Watching lateDeleteStart.xacts lateDeleteStart.xacts
    (lateDeleteBackend 8) lateDeleteSnapshot :=
  ⟨lateDelete_wellFormed, lateDelete_wellFormed,
    ⟨rfl, le_rfl, fun _ _ => rfl, fun _ _ hOver => ⟨hOver, rfl⟩, lateDelete_runs⟩,
    lateDelete_takenAt, by decide⟩

theorem lateDelete_allowed :
    AllSteps State.step (Allowed (lateDeleteBackend 8).isCurrent) lateDeleteStart lateDelete := by
  refine ⟨⟨?_, ?_, rfl⟩, ⟨by decide, by decide⟩, ⟨?_, ?_, ?_⟩, ⟨?_, .inl fun _ => rfl⟩, trivial⟩
  · intro xid hCurrent
    rw [lateDelete_current hCurrent]
    decide
  · intro xid hOwn
    rw [lateDelete_current hOwn]
    decide
  · intro xid hMem
    have hEq : xid = 7 := by simpa using hMem
    subst hEq
    exact ⟨by decide, by decide, .inl (by decide)⟩
  · intro xid _ _
    show invalidTransactionId ∉ [7]
    decide
  · intro xid _ _ hValid
    cases hValid
  · intro xid hCurrent
    rw [lateDelete_current hCurrent]
    decide

/-- Transaction 9 starts after the snapshot, and inserts another tuple. -/
def lateInsertStart : State :=
  ⟨lateDeleteStart.xacts.assign invalidTransactionId, { lateDeleteStart.tuple with xmin := 9 }⟩

def lateInsert : List Event := [.setStatus 9 .committed, .finish [9]]

theorem lateInsert_watching : Watching lateDeleteStart.xacts lateInsertStart.xacts
    (lateDeleteBackend 8) lateDeleteSnapshot := by
  obtain ⟨hNow, hLater⟩ : lateInsertStart.xacts.WellFormed ∧ _ :=
    assign_later lateDelete_wellFormed lateDelete_runs nofun
  exact { lateDelete_watching with now := hNow, later := hLater }

theorem lateInsert_allowed :
    AllSteps State.step (Allowed (lateDeleteBackend 8).isCurrent) lateInsertStart lateInsert := by
  have hParent : ∀ xid, lateInsertStart.xacts.parent xid = invalidTransactionId :=
    congrFun (update_eq_self (9 : TransactionId) fun _ => invalidTransactionId)
  refine ⟨⟨by decide, by decide⟩, ⟨?_, fun xid _ _ => ?_, fun xid _ _ hValid => ?_⟩, trivial⟩
  · refine List.forall_mem_singleton.mpr ⟨by decide, by decide, .inl (by decide)⟩
  · show lateInsertStart.xacts.parent xid ∉ [9]
    rw [hParent]
    decide
  · have hValid : transactionIdIsValid (lateInsertStart.xacts.parent xid) = true := hValid
    rw [hParent] at hValid
    cases hValid

/-- After the delete has committed the tuple is still visible, although it is gone for
a new snapshot; the tuple of transaction 9 is not, although it has committed. -/
theorem heapTupleSatisfiesMVCC_stable_lateDelete :
    lateDeleteStart.tuple.visibleAsOf lateDeleteStart.xacts (lateDeleteBackend 8)
      lateDeleteSnapshot = true ∧
    (heapTupleSatisfiesMVCC (lateDelete.foldl State.step lateDeleteStart).xacts
      (lateDeleteBackend 8) lateDeleteSnapshot
      (lateDelete.foldl State.step lateDeleteStart).tuple).1 =
      lateDeleteStart.tuple.visibleAsOf lateDeleteStart.xacts (lateDeleteBackend 8)
        lateDeleteSnapshot ∧
    (heapTupleSatisfiesMVCC (lateInsert.foldl State.step lateInsertStart).xacts
      (lateDeleteBackend 8) lateDeleteSnapshot
      (lateInsert.foldl State.step lateInsertStart).tuple).1 = false := by
  refine ⟨by decide, heapTupleSatisfiesMVCC_stable lateDelete_watching lateDelete_sound
    (fun hMoved => absurd hMoved (by decide)) lateDelete lateDelete_allowed _
    (foldl_mem_states _ _) _ rfl rfl (by decide), ?_⟩
  refine (heapTupleSatisfiesMVCC_stable lateInsert_watching ⟨.inr (by decide), nofun, ?_, nofun,
    nofun, nofun, nofun, nofun⟩ ?_ lateInsert lateInsert_allowed _ (foldl_mem_states _ _) _ rfl rfl
    (by decide)).trans (by decide)
  · exact fun hMoved => absurd hMoved (by decide)
  · exact fun hMoved => absurd hMoved (by decide)

end PgTuning.Access
