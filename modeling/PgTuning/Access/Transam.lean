import Mathlib.Data.BitVec

/-!
# Transaction ids and the commit log

Transaction ids are 32-bit numbers that wrap around, compared modulo 2^31 (`transam.c`). `Xacts` is
what the rest of the system knows about transactions: the counters of `ShmemVariableCache`, the
commit log, `pg_subtrans`, and which ids are in the `ProcArray`, so that
`TransactionIdIsInProgress` reports them. The one-entry cache in front of the commit log holds final
states only and is left out.
-/

namespace PgTuning.Access

abbrev TransactionId := BitVec 32

def invalidTransactionId : TransactionId := 0

def bootstrapTransactionId : TransactionId := 1

def frozenTransactionId : TransactionId := 2

def firstNormalTransactionId : TransactionId := 3

variable (xid : TransactionId)

def transactionIdIsValid : Bool := xid ≠ invalidTransactionId

def transactionIdIsNormal : Bool :=
  firstNormalTransactionId.toNat ≤ xid.toNat

/-- `TransactionIdAdvance`: the next id, past the special ones. -/
def transactionIdAdvance : TransactionId :=
  if (xid + 1).toNat < firstNormalTransactionId.toNat then firstNormalTransactionId
  else xid + 1

/-- `TransactionIdPrecedes`; the difference is an `int32`. -/
def transactionIdPrecedes (id1 id2 : TransactionId) : Bool :=
  if !transactionIdIsNormal id1 || !transactionIdIsNormal id2 then
    id1.toNat < id2.toNat
  else (id1 - id2).toInt < 0

def transactionIdFollowsOrEquals (id1 id2 : TransactionId) : Bool :=
  if !transactionIdIsNormal id1 || !transactionIdIsNormal id2 then
    id2.toNat ≤ id1.toNat
  else 0 ≤ (id1 - id2).toInt

/-- What the commit log says about a transaction. -/
inductive XidStatus where
  | inProgress
  | committed
  | aborted
  | subCommitted
  deriving DecidableEq

structure Xacts where
  oldestXid : TransactionId
  nextXid : TransactionId
  xidStopLimit : TransactionId
  status : TransactionId → XidStatus
  /-- `pg_subtrans`: the parent of a subtransaction. -/
  parent : TransactionId → TransactionId
  /-- The transaction, or the subtransaction, is in the `ProcArray`. -/
  running : TransactionId → Bool

namespace Xacts

variable (x : Xacts)

def transactionIdIsInProgress : Bool := x.running xid

def transactionLogFetch : XidStatus :=
  if !transactionIdIsNormal xid then
    if xid = bootstrapTransactionId then .committed
    else if xid = frozenTransactionId then .committed
    else .aborted
  else x.status xid

/-- A bound for the walks to the parents: there are no more ids than that. -/
def maxDepth : Nat := 4294967296

/-- `TransactionIdDidCommit`, with `TransactionXmin` of the calling backend. The
recursion goes to the parent of a subcommitted transaction. -/
def didCommitFrom (transactionXmin : TransactionId) : Nat → TransactionId → Bool
  | 0, _ => false
  | depth + 1, xid =>
    match x.transactionLogFetch xid with
    | .committed => true
    | .subCommitted =>
      if transactionIdPrecedes xid transactionXmin then false
      else
        let parentXid := x.parent xid
        if !transactionIdIsValid parentXid then false
        else didCommitFrom transactionXmin depth parentXid
    | _ => false

def transactionIdDidCommit (transactionXmin xid : TransactionId) : Bool :=
  x.didCommitFrom transactionXmin maxDepth xid

def topmostFrom (transactionXmin : TransactionId) : Nat → TransactionId → TransactionId
  | 0, previousXid => previousXid
  | depth + 1, previousXid =>
    if transactionIdPrecedes previousXid transactionXmin then previousXid
    else
      let parentXid := x.parent previousXid
      if !transactionIdIsValid parentXid then previousXid
      else topmostFrom transactionXmin depth parentXid

def subTransGetTopmostTransaction (transactionXmin xid : TransactionId) : TransactionId :=
  x.topmostFrom transactionXmin maxDepth xid

end Xacts

/-! ## Comparing ids -/

/-- How far an id is past the oldest one. -/
def Xacts.age (x : Xacts) (xid : TransactionId) : Nat := (xid - x.oldestXid).toNat

variable {a b : TransactionId}

/-- Where two ids are at most 2^31 apart, seen from a third one, the comparison modulo 2^31 is that
of their distances from it. -/
theorem precedes_iff_sub (base : TransactionId) (ha : transactionIdIsNormal a)
    (hb : transactionIdIsNormal b) (hAbove : (a - base).toNat < (b - base).toNat + 2147483648)
    (hBelow : (b - base).toNat ≤ (a - base).toNat + 2147483648) :
    transactionIdPrecedes a b ↔ (a - base).toNat < (b - base).toNat := by
  have hNeg : (a - b).toInt < 0 ↔ 2147483648 ≤ (a - b).toNat := by
    rw [BitVec.toInt_eq_toNat_cond]
    split <;> omega
  simp only [transactionIdPrecedes, ha, hb, Bool.not_true, Bool.or_self, Bool.false_eq_true,
    if_false, decide_eq_true_eq]
  bv_omega

theorem followsOrEquals_eq (a b : TransactionId) :
    transactionIdFollowsOrEquals a b = !transactionIdPrecedes a b := by
  unfold transactionIdFollowsOrEquals transactionIdPrecedes
  split_ifs
  · simp only [← decide_not, Nat.not_lt]
  · simp only [← decide_not, Int.not_lt]

section

variable {x : Xacts} (ha : transactionIdIsNormal a) (hb : transactionIdIsNormal b)
  (hWa : x.age a < 2147483648) (hWb : x.age b < 2147483648)
include ha hb hWa hWb

theorem precedes_iff_age :
    transactionIdPrecedes a b ↔ x.age a < x.age b := by
  unfold Xacts.age at *
  exact precedes_iff_sub x.oldestXid ha hb (by omega) (by omega)

theorem followsOrEquals_iff_age :
    transactionIdFollowsOrEquals a b ↔ x.age b ≤ x.age a := by
  rw [followsOrEquals_eq, Bool.not_eq_true', ← Bool.not_eq_true,
    precedes_iff_age ha hb hWa hWb, Nat.not_lt]

end

theorem precedes_of_special (ha : transactionIdIsNormal a = false)
    (hb : transactionIdIsNormal b) : transactionIdPrecedes a b := by
  simp only [transactionIdIsNormal, decide_eq_false_iff_not, decide_eq_true_eq] at ha hb
  simp only [transactionIdPrecedes, transactionIdIsNormal]
  simp only [show ¬firstNormalTransactionId.toNat ≤ a.toNat from ha, decide_false,
    Bool.not_false, Bool.true_or, if_true, decide_eq_true_eq]
  omega

/-! ## Well-formed states -/

namespace Xacts

variable (x : Xacts)

/-- The id has been given to a transaction. -/
def Assigned : Prop :=
  transactionIdIsNormal xid = true ∧ x.age xid < x.age x.nextXid

instance (xid : TransactionId) : Decidable (x.Assigned xid) :=
  inferInstanceAs (Decidable (_ ∧ _))

/-- The id may stand in a tuple. -/
def Known : Prop :=
  transactionIdIsNormal xid = false ∨ x.Assigned xid

/-- The transaction has committed and has left the `ProcArray`. -/
def committed : Bool :=
  xid = bootstrapTransactionId || xid = frozenTransactionId ||
    (decide (x.Assigned xid) && !x.running xid && decide (x.status xid = .committed))

/-- What holds of the transactions at any time. Ids in use fit into half of the number space; a
running subtransaction has a running parent and a younger id; a subtransaction commits with its
parent. One that is not running and still only subcommitted was left behind by a crash. -/
structure WellFormed : Prop where
  next : transactionIdIsNormal x.nextXid = true
  window : x.age x.nextXid < 2147483648
  stopLimit : transactionIdIsNormal x.xidStopLimit = true ∧
    x.age x.xidStopLimit + 4 < 2147483648
  running : ∀ xid, x.running xid = true → x.Assigned xid
  parent : ∀ xid, x.Assigned xid → transactionIdIsValid (x.parent xid) = true →
    x.Assigned (x.parent xid) ∧ x.age (x.parent xid) < x.age xid
  parent_running : ∀ xid, x.running xid = true →
    transactionIdIsValid (x.parent xid) = true → x.running (x.parent xid) = true
  parent_committed : ∀ xid, x.Assigned xid → x.running xid = false →
    x.status xid = .committed → transactionIdIsValid (x.parent xid) = true →
    x.running (x.parent xid) = false ∧ x.status (x.parent xid) = .committed
  crashed : ∀ xid, x.Assigned xid → x.running xid = false →
    x.status xid = .subCommitted → transactionIdIsValid (x.parent xid) = true →
    x.running (x.parent xid) = false ∧ x.status (x.parent xid) ≠ .committed

variable {x} {xid : TransactionId}

theorem committed_normal (hNormal : transactionIdIsNormal xid) :
    x.committed xid ↔
      x.Assigned xid ∧ x.running xid = false ∧ x.status xid = .committed := by
  have hBoot : xid ≠ bootstrapTransactionId := by
    intro hEq
    rw [hEq] at hNormal
    cases hNormal
  have hFrozen : xid ≠ frozenTransactionId := by
    intro hEq
    rw [hEq] at hNormal
    cases hNormal
  simp [committed, hBoot, hFrozen, and_assoc]

theorem committed_special (hSpecial : transactionIdIsNormal xid = false) (x y : Xacts) :
    x.committed xid = y.committed xid := by
  have hNot : ∀ z : Xacts, ¬z.Assigned xid :=
    fun z hAssigned => ne_true_of_eq_false hSpecial hAssigned.1
  simp [committed, hNot]

variable (h : x.WellFormed)
include h

theorem WellFormed.not_running (hCommitted : x.committed xid) : x.running xid = false := by
  by_cases hNormal : transactionIdIsNormal xid
  · exact ((committed_normal hNormal).mp hCommitted).2.1
  · by_contra hRun
    exact hNormal (h.running xid (by simpa using hRun)).1

theorem WellFormed.not_committed (hRun : x.running xid) : x.committed xid = false := by
  refine Bool.eq_false_iff.mpr fun hCommitted => ?_
  exact ne_true_of_eq_false (h.not_running hCommitted) hRun

variable (transactionXmin : TransactionId) {P : TransactionId → Prop}

/-- A subcommitted transaction that is not running has not committed. -/
theorem WellFormed.didCommitFrom_crashed
    (depth : Nat) : ∀ xid, x.Assigned xid → x.running xid = false →
      x.status xid ≠ .committed → x.didCommitFrom transactionXmin depth xid = false := by
  induction depth with
  | zero => exact fun _ _ _ _ => rfl
  | succ depth ih =>
    intro xid hAssigned hRun hStatus
    have hFetch : x.transactionLogFetch xid = x.status xid := by
      simp [transactionLogFetch, hAssigned.1]
    unfold didCommitFrom
    rw [hFetch]
    cases hCase : x.status xid with
    | inProgress => rfl
    | committed => exact absurd hCase hStatus
    | aborted => rfl
    | subCommitted =>
      by_cases hValid : transactionIdIsValid (x.parent xid)
      · obtain ⟨hRunParent, hParent⟩ := h.crashed xid hAssigned hRun hCase hValid
        have hAbove := (h.parent xid hAssigned hValid).1
        simp [ih _ hAbove hRunParent hParent]
      · simp [hValid]

theorem WellFormed.didCommit_eq (hKnown : x.Known xid)
    (hRun : x.running xid = false) (transactionXmin : TransactionId) :
    x.transactionIdDidCommit transactionXmin xid = x.committed xid := by
  have hDepth : maxDepth = 4294967295 + 1 := rfl
  cases hKnown with
  | inl hSpecial =>
    have hNot : ¬x.Assigned xid := fun hAssigned => by
      rw [hAssigned.1] at hSpecial
      cases hSpecial
    unfold transactionIdDidCommit
    rw [hDepth, didCommitFrom]
    by_cases hBoot : xid = bootstrapTransactionId
    · subst hBoot
      rfl
    by_cases hFrozen : xid = frozenTransactionId
    · subst hFrozen
      rfl
    · simp [transactionLogFetch, committed, hSpecial, hBoot, hFrozen, hNot]
  | inr hAssigned =>
    by_cases hStatus : x.status xid = .committed
    · have hTrue : x.committed xid :=
        (committed_normal hAssigned.1).mpr ⟨hAssigned, hRun, hStatus⟩
      unfold transactionIdDidCommit
      rw [hDepth, didCommitFrom, hTrue]
      simp [transactionLogFetch, hAssigned.1, hStatus]
    · have hFalse : x.committed xid = false := by
        by_contra hTrue
        exact hStatus ((committed_normal hAssigned.1).mp (by simpa using hTrue)).2.2
      rw [hFalse]
      exact h.didCommitFrom_crashed transactionXmin _ xid hAssigned hRun hStatus

theorem WellFormed.over_iff (hKnown : x.Known xid) {transactionXmin : TransactionId} {c : Bool} :
    x.running xid = false ∧ x.transactionIdDidCommit transactionXmin xid = c ↔
      x.running xid = false ∧ x.committed xid = c :=
  and_congr_right fun hRun => by rw [h.didCommit_eq hKnown hRun]

variable (hParent : ∀ y, x.Assigned y → P y → transactionIdIsValid (x.parent y) → P (x.parent y))
include hParent

/-- The walk to the topmost transaction ends at a transaction without parent, or
before `TransactionXmin`. Whatever a parent inherits, it has. -/
theorem WellFormed.topmostFrom_spec (depth : Nat) :
    ∀ xid, x.Assigned xid → P xid → x.age xid < depth →
      let top := x.topmostFrom transactionXmin depth xid
      x.Assigned top ∧ x.age top ≤ x.age xid ∧ P top ∧
        (transactionIdPrecedes top transactionXmin ∨
          transactionIdIsValid (x.parent top) = false) := by
  induction depth with
  | zero => exact fun _ _ _ hAge => absurd hAge (Nat.not_lt_zero _)
  | succ depth ih =>
    intro xid hAssigned hP hAge
    unfold topmostFrom
    by_cases hOld : transactionIdPrecedes xid transactionXmin
    · rw [if_pos hOld]
      exact ⟨hAssigned, le_rfl, hP, .inl hOld⟩
    by_cases hValid : transactionIdIsValid (x.parent xid)
    · obtain ⟨hAbove, hYounger⟩ := h.parent xid hAssigned hValid
      have hTop := ih (x.parent xid) hAbove (hParent xid hAssigned hP hValid) (by omega)
      simp only [hOld, hValid, Bool.not_true, Bool.false_eq_true, if_false]
      exact ⟨hTop.1, by have := hTop.2.1; omega, hTop.2.2⟩
    · have hNone : transactionIdIsValid (x.parent xid) = false := by simpa using hValid
      rw [if_neg hOld]
      simp only [hNone, Bool.not_false, if_true]
      exact ⟨hAssigned, le_rfl, hP, .inr trivial⟩

theorem WellFormed.topmost_spec (hAssigned : x.Assigned xid) (hP : P xid) :
    let top := x.subTransGetTopmostTransaction transactionXmin xid
    x.Assigned top ∧ x.age top ≤ x.age xid ∧ P top ∧
      (transactionIdPrecedes top transactionXmin ∨
        transactionIdIsValid (x.parent top) = false) := by
  have hAge := hAssigned.2
  have hWindow := h.window
  refine h.topmostFrom_spec transactionXmin hParent maxDepth xid hAssigned hP ?_
  show x.age xid < 4294967296
  omega

end Xacts

end PgTuning.Access
