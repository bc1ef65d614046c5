import PgTuning.Lib.Run
import PgTuning.Access.HintBits

/-!
# MVCC snapshots are stable

After a snapshot is taken other transactions start, end, lock, update and delete a tuple, and anyone
who looks at it may set hint bits in it. The result of `HeapTupleSatisfiesMVCC` stays what it was:
it depends on who had committed when the snapshot was taken, and on the commands of the snapshot's
own transaction (`visibleAsOf`).
-/

namespace PgTuning.Access

open PgTuning.Lib HeapTupleHeader

/-! ## Later states -/

/-- `x'` is a later state than `x`: what was over then is still over, with the same
outcome. The transaction with the ids `own` is running all the time. -/
structure Xacts.Later (x x' : Xacts) (own : TransactionId → Bool) : Prop where
  oldest : x'.oldestXid = x.oldestXid
  next : x.age x.nextXid ≤ x.age x'.nextXid
  parent : ∀ xid, x.Assigned xid → x'.parent xid = x.parent xid
  ended : ∀ xid, x.Assigned xid → x.running xid = false →
    x'.running xid = false ∧ x'.status xid = x.status xid
  own : ∀ xid, own xid = true → x'.running xid = true

namespace Xacts.Later

variable {x x' x'' : Xacts} {own : TransactionId → Bool} {xid : TransactionId}

variable (h : x.Later x' own)
include h

theorem age (xid : TransactionId) : x'.age xid = x.age xid := by
  unfold Xacts.age
  rw [h.oldest]

theorem assigned (hAssigned : x.Assigned xid) : x'.Assigned xid := by
  have hNext := h.next
  have hAge := hAssigned.2
  refine ⟨hAssigned.1, ?_⟩
  rw [h.age, h.age]
  omega

theorem known (hKnown : x.Known xid) : x'.Known xid := by
  cases hKnown with
  | inl hSpecial => exact .inl hSpecial
  | inr hAssigned => exact .inr (h.assigned hAssigned)

theorem trans (h' : x'.Later x'' own) : x.Later x'' own where
  oldest := h'.oldest.trans h.oldest
  next := by
    have hFirst := h.next
    have hSecond := h'.next
    rw [h.age, h.age] at hSecond
    omega
  parent xid hAssigned := (h'.parent xid (h.assigned hAssigned)).trans (h.parent xid hAssigned)
  ended xid hAssigned hRun := by
    obtain ⟨hRun', hStatus⟩ := h.ended xid hAssigned hRun
    obtain ⟨hRun'', hStatus'⟩ := h'.ended xid (h.assigned hAssigned) hRun'
    exact ⟨hRun'', hStatus'.trans hStatus⟩
  own := h'.own

theorem not_running (hx' : x'.WellFormed) (hKnown : x.Known xid)
    (hRun : x.running xid = false) : x'.running xid = false := by
  cases hKnown with
  | inl hSpecial =>
    refine Bool.eq_false_iff.mpr fun hTrue => ?_
    exact ne_true_of_eq_false hSpecial (hx'.running xid hTrue).1
  | inr hAssigned => exact (h.ended xid hAssigned hRun).1

theorem committed_eq (hKnown : x.Known xid)
    (hRun : x.running xid = false) : x'.committed xid = x.committed xid := by
  cases hKnown with
  | inl hSpecial => exact Xacts.committed_special hSpecial x' x
  | inr hAssigned =>
    obtain ⟨hRun', hStatus⟩ := h.ended xid hAssigned hRun
    simp [Xacts.committed, h.assigned hAssigned, hAssigned, hRun, hRun', hStatus]

theorem committed (hCommitted : x.committed xid) : x'.committed xid := by
  cases hNormal : transactionIdIsNormal xid with
  | false => rwa [Xacts.committed_special hNormal x' x]
  | true =>
    obtain ⟨hAssigned, hRun, -⟩ := (Xacts.committed_normal hNormal).mp hCommitted
    rwa [h.committed_eq (.inr hAssigned) hRun]

theorem not_committed (hx' : x'.WellFormed) (hRun : x'.running xid) : x.committed xid = false := by
  refine Bool.eq_false_iff.mpr fun hTrue => ?_
  exact ne_true_of_eq_false (hx'.not_committed hRun) (h.committed hTrue)

end Xacts.Later

section

variable {x x' : Xacts} {own : TransactionId → Bool} {t : HeapTupleHeader}

theorem inPlace_later (h : x.Later x' own) (hMoved : t.movedOff ∨ t.movedIn →
      x.Known t.xvac ∧ x.running t.xvac = false) : t.inPlace x' = t.inPlace x := by
  unfold HeapTupleHeader.inPlace
  by_cases hFlag : t.movedOff ∨ t.movedIn
  · obtain ⟨hKnown, hRun⟩ := hMoved hFlag
    rw [h.committed_eq hKnown hRun]
  · push Not at hFlag
    simp [hFlag.1, hFlag.2]

theorem HeapTupleHeader.Sound.later (ht : t.Sound x own) (hx' : x'.WellFormed)
    (h : x.Later x' own) : t.Sound x' own := by
  have hPlace : t.inPlace x' = t.inPlace x := inPlace_later h fun hMoved => (ht.moved hMoved).2
  refine ⟨h.known ht.xmin, fun xid hDel => h.known (ht.xmax xid hDel), ?_, ?_, ?_, ?_, ?_, ht.multi⟩
  · intro hMoved
    obtain ⟨hXmin, hKnown, hRun⟩ := ht.moved hMoved
    exact ⟨h.committed hXmin, h.known hKnown, h.not_running hx' hKnown hRun⟩
  · intro hBit
    obtain ⟨hXmin, hIn⟩ := ht.xminCommitted hBit
    exact ⟨h.committed hXmin, hPlace.trans hIn⟩
  · intro hBit hNot
    obtain ⟨hRun, hGone⟩ := ht.xminInvalid hBit hNot
    rw [h.committed_eq ht.xmin hRun, hPlace]
    exact ⟨h.not_running hx' ht.xmin hRun, hGone⟩
  · exact fun hBit xid hDel => h.committed (ht.xmaxCommitted hBit xid hDel)
  · intro hMine xid hDel
    cases ht.own hMine xid hDel with
    | inl hOwn => exact .inl hOwn
    | inr hOver =>
      have hKnown := ht.xmax xid hDel
      rw [h.committed_eq hKnown hOver.1]
      exact .inr ⟨h.not_running hx' hKnown hOver.1, hOver.2⟩

end

/-! ## The snapshot -/

/-- The ids that `XidInMVCCSnapshot` searches. -/
def Snapshot.searched (s : Snapshot) : List TransactionId :=
  if s.takenDuringRecovery then s.subxip
  else if s.suboverflowed then s.xip else s.subxip ++ s.xip

/-- The snapshot was taken in state `x` by the transaction with the ids `own`. All transactions
before `xmin` were over; none from `xmax` on had committed; of those in between the lists have the
running ones, without the own ones, and without subtransactions if they overflowed. -/
structure Snapshot.TakenAt (s : Snapshot) (x : Xacts) (own : TransactionId → Bool) : Prop where
  normal : transactionIdIsNormal s.xmin = true ∧ transactionIdIsNormal s.xmax = true
  ordered : x.age s.xmin ≤ x.age s.xmax ∧ x.age s.xmax ≤ x.age x.nextXid
  older : ∀ xid, x.Assigned xid → x.age xid < x.age s.xmin → x.running xid = false
  newer : ∀ xid, x.Assigned xid → x.age s.xmax ≤ x.age xid → x.committed xid = false
  listed : ∀ xid ∈ s.searched, x.running xid = true ∧ own xid = false
  complete : ∀ xid, x.running xid = true → own xid = false → x.age s.xmin ≤ x.age xid →
    x.age xid < x.age s.xmax →
    (s.suboverflowed = true → transactionIdIsValid (x.parent xid) = false) →
    xid ∈ s.searched

/-- What is fixed while a backend uses a snapshot. -/
structure Watching (x₀ x : Xacts) (b : Backend) (s : Snapshot) : Prop where
  start : x₀.WellFormed
  now : x.WellFormed
  later : x₀.Later x b.isCurrent
  snapshot : s.TakenAt x₀ b.isCurrent
  xmin : transactionIdIsNormal b.transactionXmin = true ∧
    x₀.age b.transactionXmin ≤ x₀.age s.xmin

section InSnapshot

variable {x₀ x : Xacts} {s : Snapshot} {b : Backend} {xid : TransactionId}

variable (h : Watching x₀ x b s)
include h

theorem Watching.not_current (hRun : x.running xid = false) :
    b.isCurrent xid = false := Access.not_current h.later.own hRun

theorem Watching.not_committed (hNot : x.committed xid = false) : x₀.committed xid = false := by
  refine Bool.eq_false_iff.mpr fun hTrue => ?_
  exact ne_true_of_eq_false hNot (h.later.committed hTrue)

omit h in
theorem xidInMVCCSnapshot_between (h₁ : transactionIdPrecedes xid s.xmin = false)
    (h₂ : transactionIdFollowsOrEquals xid s.xmax = false) :
    xidInMVCCSnapshot x b xid s =
      if s.suboverflowed then
        let top := x.subTransGetTopmostTransaction b.transactionXmin xid
        if transactionIdPrecedes top s.xmin then false else decide (top ∈ s.searched)
      else decide (xid ∈ s.searched) := by
  unfold xidInMVCCSnapshot Snapshot.searched
  rw [h₁, h₂]
  cases s.takenDuringRecovery <;> cases s.suboverflowed <;>
    simp

/-- The topmost parent of a transaction that was running is listed: all its parents were
running too, and all of them are over by now. -/
theorem Watching.topmost_listed
    (hCommitted : x.Assigned xid ∧ x.running xid = false ∧ x.status xid = .committed)
    (hRun : x₀.running xid) (hHigh : x₀.age xid < x₀.age s.xmax) :
    let top := x.subTransGetTopmostTransaction b.transactionXmin xid
    transactionIdPrecedes top s.xmin = false ∧ top ∈ s.searched := by
  have hTop := h.now.topmost_spec b.transactionXmin
    (P := fun y => x₀.running y ∧ x.running y = false ∧ x.status y = .committed)
    (fun y hAssigned hP hValid => by
      obtain ⟨hWas, hNow, hDone⟩ := hP
      refine ⟨?_, h.now.parent_committed y hAssigned hNow hDone hValid⟩
      rw [h.later.parent y (h.start.running y hWas)] at hValid ⊢
      exact h.start.parent_running y hWas hValid)
    hCommitted.1 ⟨hRun, hCommitted.2⟩
  generalize x.subTransGetTopmostTransaction b.transactionXmin xid = top at hTop
  obtain ⟨-, hAge, ⟨hTopRun, hTopNow, -⟩, hEnd⟩ := hTop
  rw [h.later.age, h.later.age] at hAge
  have hAssigned := h.start.running top hTopRun
  have hOrdered := h.snapshot.ordered
  have hWindow := h.start.window
  have hLow : x₀.age s.xmin ≤ x₀.age top := by
    by_contra hLt
    exact ne_true_of_eq_false (h.snapshot.older top hAssigned (by omega)) hTopRun
  -- No id up to the snapshot's `xmin` comes after it.
  have hNotOld : ∀ y, transactionIdIsNormal y → x₀.age y ≤ x₀.age s.xmin →
      transactionIdPrecedes top y = false := by
    intro y hNormal hy
    refine Bool.eq_false_iff.mpr fun hPrec => ?_
    have := (precedes_iff_age (x := x₀) hAssigned.1 hNormal (by omega) (by omega)).mp hPrec
    omega
  refine ⟨hNotOld _ h.snapshot.normal.1 le_rfl, ?_⟩
  apply h.snapshot.complete top hTopRun (h.not_current hTopNow) hLow (by omega)
  intro _
  rw [← h.later.parent top hAssigned]
  exact hEnd.resolve_left (ne_true_of_eq_false (hNotOld _ h.xmin.1 h.xmin.2))

/-- For a transaction that has committed by now, `XidInMVCCSnapshot` tells whether it
had committed when the snapshot was taken. -/
theorem Watching.inSnapshot (hCommitted : x.committed xid) :
    xidInMVCCSnapshot x b xid s = !x₀.committed xid := by
  obtain ⟨hMinNormal, hMaxNormal⟩ := h.snapshot.normal
  have hOrdered := h.snapshot.ordered
  have hWindow := h.start.window
  have hWindow' := h.now.window
  rw [h.later.age] at hWindow'
  cases hNormal : transactionIdIsNormal xid with
  | false =>
    rw [Xacts.committed_special hNormal x₀ x, hCommitted]
    unfold xidInMVCCSnapshot
    rw [precedes_of_special hNormal hMinNormal]
    rfl
  | true =>
  have hNow := (Xacts.committed_normal hNormal).mp hCommitted
  have hAge := hNow.1.2
  rw [h.later.age, h.later.age] at hAge
  have hPrec := precedes_iff_age (x := x₀) hNormal hMinNormal (by omega) (by omega)
  have hFoll := followsOrEquals_iff_age (x := x₀) hNormal hMaxNormal (by omega) (by omega)
  -- A transaction that was over then had committed then.
  have hThen : x₀.Assigned xid → x₀.running xid = false → x₀.committed xid := by
    intro hAssigned hRun
    rwa [← h.later.committed_eq (.inr hAssigned) hRun]
  by_cases hOld : transactionIdPrecedes xid s.xmin
  · have hLt := hPrec.mp hOld
    have hAssigned : x₀.Assigned xid := ⟨hNormal, by omega⟩
    rw [hThen hAssigned (h.snapshot.older xid hAssigned hLt)]
    unfold xidInMVCCSnapshot
    rw [if_pos hOld]
    rfl
  by_cases hNew : transactionIdFollowsOrEquals xid s.xmax
  · have hFalse : x₀.committed xid = false := by
      refine Bool.eq_false_iff.mpr fun hTrue => ne_true_of_eq_false ?_ hTrue
      exact h.snapshot.newer xid ((Xacts.committed_normal hNormal).mp hTrue).1 (hFoll.mp hNew)
    unfold xidInMVCCSnapshot
    rw [if_neg hOld, if_pos hNew, hFalse]
    rfl
  rw [xidInMVCCSnapshot_between (by simpa using hOld) (by simpa using hNew)]
  rw [hPrec] at hOld
  rw [hFoll] at hNew
  have hAssigned : x₀.Assigned xid := ⟨hNormal, by omega⟩
  cases hRun : x₀.running xid with
  | true =>
    rw [h.start.not_committed hRun]
    split_ifs with hOverflow
    · obtain ⟨hNotOld, hMem⟩ := h.topmost_listed hNow hRun (by omega)
      dsimp only
      rw [hNotOld]
      exact decide_eq_true hMem
    · apply decide_eq_true
      exact h.snapshot.complete xid hRun (h.not_current hNow.2.1) (by omega) (by omega)
        fun hTrue => absurd hTrue hOverflow
  | false =>
    -- It was over: so were its parents.
    have hDone := hThen hAssigned hRun
    have hUnlisted : ∀ y, x₀.running y = false → decide (y ∈ s.searched) = false :=
      fun y hOver => decide_eq_false fun hMem =>
        ne_true_of_eq_false hOver (h.snapshot.listed y hMem).1
    rw [hDone]
    split_ifs with hOverflow
    · have hTop := h.now.topmost_spec b.transactionXmin
        (P := fun y => x₀.Assigned y ∧ x₀.running y = false ∧ x₀.status y = .committed)
        (fun y _ hP hValid => by
          obtain ⟨hWas, hNow, hCom⟩ := hP
          rw [h.later.parent y hWas] at hValid ⊢
          exact ⟨(h.start.parent y hWas hValid).1,
            h.start.parent_committed y hWas hNow hCom hValid⟩)
        hNow.1 ((Xacts.committed_normal hNormal).mp hDone)
      dsimp only
      rw [hUnlisted _ hTop.2.2.1.2.1, ite_self]
      rfl
    · rw [hUnlisted xid hRun]
      rfl

end InSnapshot

/-! ## What a snapshot sees -/

/-- A transaction had deleted the tuple when the snapshot was taken in state `x₀`:
it had committed, or it is the own one and did so in an earlier command. -/
def HeapTupleHeader.deletedAsOf (t : HeapTupleHeader) (x₀ : Xacts) (b : Backend)
    (s : Snapshot) : Bool :=
  match t.deleter with
  | none => false
  | some xid =>
    x₀.committed xid || (b.isCurrent xid && decide ((t.cmax b).toNat < s.curcid.toNat))

/-- A transaction had inserted the tuple when the snapshot was taken. -/
def HeapTupleHeader.insertedAsOf (t : HeapTupleHeader) (x₀ : Xacts) (b : Backend)
    (s : Snapshot) : Bool :=
  t.inPlace x₀ && (x₀.committed t.xmin ||
    (b.isCurrent t.xmin && decide ((t.cmin b).toNat < s.curcid.toNat)))

def HeapTupleHeader.visibleAsOf (t : HeapTupleHeader) (x₀ : Xacts) (b : Backend)
    (s : Snapshot) : Bool :=
  t.insertedAsOf x₀ b s && !t.deletedAsOf x₀ b s

variable {x₀ x : Xacts} {s : Snapshot} {b : Backend} {t t' : HeapTupleHeader}

theorem decide_le_eq_not_lt (m n : Nat) : decide (m ≤ n) = !decide (n < m) := by
  by_cases hLt : n < m
  · simp [hLt]
  · simp [Nat.le_of_not_lt hLt]

variable (h : Watching x₀ x b s) (ht : t.Sound x b.isCurrent)
  (hMoved : t.movedOff = true ∨ t.movedIn = true → x₀.Known t.xvac ∧ x₀.running t.xvac = false)
include h ht hMoved

theorem mvccRest_value (hXmin : x.committed t.xmin) (hPlace : t.inPlace x) :
    (mvccRest x b s t).1 = t.visibleAsOf x₀ b s := by
  have hMine : b.isCurrent t.xmin = false := h.not_current (h.now.not_running hXmin)
  have hPlace₀ : t.inPlace x₀ := (inPlace_later h.later hMoved).symm.trans hPlace
  have hInserted : t.insertedAsOf x₀ b s = x₀.committed t.xmin := by
    simp [insertedAsOf, hPlace₀, hMine]
  unfold mvccRest visibleAsOf Xacts.transactionIdIsInProgress
  rw [h.inSnapshot hXmin, hInserted]
  by_cases hThen : x₀.committed t.xmin
  case neg => simp [hThen]
  simp only [hThen, Bool.not_true, Bool.false_eq_true, if_false]
  rcases deleter_cases t with ⟨hNone, hFlags⟩ | ⟨hDeleter, hFlags⟩
  · have hNot : t.deletedAsOf x₀ b s = false := by simp [deletedAsOf, hNone]
    rw [hNot]
    rcases hFlags with hFlag | hFlag | hFlag
    · simp [hFlag]
    · simp [hFlag]
    · simp only [hFlag]
      split <;> simp
  have hDeleted : t.deletedAsOf x₀ b s = (x₀.committed t.xmax ||
      (b.isCurrent t.xmax && decide ((t.cmax b).toNat < s.curcid.toNat))) := by
    simp [deletedAsOf, hDeleter]
  simp only [hFlags, hDeleted]
  -- A committed deleter is not the own transaction.
  have hCommittedCase : x.committed t.xmax →
      xidInMVCCSnapshot x b t.xmax s = !(x₀.committed t.xmax ||
        (b.isCurrent t.xmax && decide ((t.cmax b).toNat < s.curcid.toNat))) := by
    intro hXmax
    rw [h.inSnapshot hXmax, h.not_current (h.now.not_running hXmax)]
    simp
  by_cases hBit : t.xmaxCommitted
  · simp only [hBit]
    exact hCommittedCase (ht.xmaxCommitted hBit _ hDeleter)
  simp only [hBit]
  by_cases hOwn : b.isCurrent t.xmax
  · have hNot := h.later.not_committed h.now (h.later.own _ hOwn)
    simp [hOwn, hNot, decide_le_eq_not_lt]
  simp only [hOwn, Bool.false_and, Bool.or_false]
  by_cases hRun : x.running t.xmax
  · simp [hRun, h.later.not_committed h.now hRun]
  have hOver : x.running t.xmax = false := by simpa using hRun
  rw [if_neg hRun, h.now.didCommit_eq (ht.xmax _ hDeleter) hOver]
  by_cases hXmax : x.committed t.xmax
  · simp only [hXmax]
    exact h.inSnapshot hXmax
  · simp [hXmax, h.not_committed (by simpa using hXmax)]

omit hMoved in
/-- Only the hint that nobody has deleted the tuple bears on what is visible, and it
is not set against the truth. -/
theorem visibleAsOf_withHint {c : Backend} (hc : x.Runs c)
    (hSides : (∀ xid, c.isCurrent xid = b.isCurrent xid) ∨ c.Other b.isCurrent)
    {hint : Hint} (hJust : Justified x c t hint) :
    (t.withHint hint).visibleAsOf x₀ b s = t.visibleAsOf x₀ b s := by
  cases hint with
  | xminCommitted => rfl
  | xminInvalid => rfl
  | xmaxCommitted => rfl
  | xmaxInvalid =>
    have hInserted : (t.withHint .xmaxInvalid).insertedAsOf x₀ b s = t.insertedAsOf x₀ b s := rfl
    have hDeleted : (t.withHint .xmaxInvalid).deletedAsOf x₀ b s = false := by
      simp [deletedAsOf, deleter_withHint_xmaxInvalid]
    unfold visibleAsOf
    rw [hInserted, hDeleted]
    cases hDel : t.deleter with
    | none => simp [deletedAsOf, hDel]
    | some xid =>
      have hEq := xmax_of_deleter hDel
      have hOver : x.running xid = false → x.committed xid = false →
          t.deletedAsOf x₀ b s = false := by
        intro hRun hNot
        simp [deletedAsOf, hDel, h.not_current hRun, h.not_committed hNot]
      rcases hJust with hNone | ⟨hRun, hDid⟩ | ⟨hOwn, hOther⟩
      · rw [hDel] at hNone
        cases hNone
      · rw [hEq] at hRun hDid
        rw [h.now.didCommit_eq (ht.xmax xid hDel) hRun] at hDid
        rw [hOver hRun hDid]
      · cases hSides with
        | inl hSame =>
          have hMine : b.isCurrent t.xmin := by
            rw [← hSame]
            exact hOwn.2.2.2
          have hNotMine : b.isCurrent xid = false := by
            rw [← hSame, ← hEq]
            exact hOther
          have hGone := (ht.own hMine xid hDel).resolve_left (ne_true_of_eq_false hNotMine)
          rw [hOver hGone.1 hGone.2]
        | inr hDisjoint =>
          have hRun := hc _ hOwn.2.2.2
          have hNotMine : b.isCurrent t.xmin = false := Bool.eq_false_iff.mpr fun hTrue =>
            ne_true_of_eq_false (hDisjoint t.xmin hTrue) hOwn.2.2.2
          have hNot : t.insertedAsOf x₀ b s = false := by
            simp [insertedAsOf, hNotMine, h.later.not_committed h.now hRun]
          rw [hNot]
          rfl

omit hMoved in
theorem visibleAsOf_hinted {c : Backend} (hc : x.Runs c)
    (hSides : (∀ xid, c.isCurrent xid = b.isCurrent xid) ∨ c.Other b.isCurrent)
    (hHinted : Hinted x c t t') : t'.visibleAsOf x₀ b s = t.visibleAsOf x₀ b s := by
  induction hHinted with
  | refl => rfl
  | hint hint hBefore hJust ih =>
    rw [visibleAsOf_withHint h (ht.hinted h.now hBefore) hc hSides hJust, ih]

/-- **The value of `HeapTupleSatisfiesMVCC`.** -/
theorem heapTupleSatisfiesMVCC_value :
    (heapTupleSatisfiesMVCC x b s t).1 = t.visibleAsOf x₀ b s := by
  refine checkXmin_elim (motive := fun r => r.1 = t.visibleAsOf x₀ b s) h.now ht h.later.own
    ?_ ?_ ?_
  · intro t' hHinted hXmin hPlace _
    obtain ⟨hSame, hOff, hIn, hField⟩ := hHinted.same
    have hXvac : t'.xvac = t.xvac := by simp [xvac, hOff, hIn, hField]
    rw [mvccRest_value h (ht.hinted h.now hHinted)
      (by rw [hOff, hIn, hXvac]; exact hMoved) (by rw [hSame]; exact hXmin)
      (by simpa [inPlace, hOff, hIn, hXvac] using hPlace)]
    exact visibleAsOf_hinted h ht h.later.own (.inl fun _ => rfl) hHinted
  · rintro ⟨-, hOff, hIn, hMine⟩
    have hNot : x₀.committed t.xmin = false := h.later.not_committed h.now (h.later.own _ hMine)
    have hInserted : t.insertedAsOf x₀ b s =
        decide ((t.cmin b).toNat < s.curcid.toNat) := by
      simp [insertedAsOf, inPlace, hOff, hIn, hMine, hNot]
    unfold visibleAsOf
    rw [hInserted]
    by_cases hAfter : s.curcid.toNat ≤ (t.cmin b).toNat
    · simp [hAfter]
    have hBefore : (t.cmin b).toNat < s.curcid.toNat := by omega
    simp only [hAfter, hBefore]
    unfold checkOwnXmax
    by_cases hInvalid : t.xmaxInvalid
    · simp [hInvalid, deletedAsOf, deleter_of_invalid hInvalid]
    by_cases hLocked : t.isLocked
    · simp [hLocked, deletedAsOf, deleter_of_locked hLocked]
    have hDeleter : t.deleter = some t.xmax := by
      have hMulti : ¬t.xmaxIsMulti := fun hTrue => hLocked (ht.multi hTrue)
      simp [deleter, hInvalid, hLocked, hMulti]
    by_cases hXmax : b.isCurrent t.xmax
    · have hNotThen := h.later.not_committed h.now (h.later.own _ hXmax)
      simp [hInvalid, hLocked, hXmax, deletedAsOf, hDeleter, hNotThen, decide_le_eq_not_lt]
    · have hGone := (ht.own hMine _ hDeleter).resolve_left hXmax
      simp [hInvalid, hLocked, hXmax, deletedAsOf, hDeleter, h.not_committed hGone.2]
  · intro r t' hFalse _ hOther hGone
    have hNot : t.insertedAsOf x₀ b s = false := by
      cases hGone with
      | inl hXmin => simp [insertedAsOf, hOther, h.not_committed hXmin]
      | inr hPlace =>
        rw [inPlace_later h.later hMoved] at hPlace
        simp [insertedAsOf, hPlace]
    simp [or_self_iff.mp hFalse, visibleAsOf, hNot]

end PgTuning.Access
