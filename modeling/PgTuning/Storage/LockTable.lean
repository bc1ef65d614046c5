import Mathlib.Algebra.BigOperators.Group.Finset.Piecewise
import PgTuning.Lib.BitMask
import PgTuning.Storage.Lock

/-!
# One lock object

`Holds` and `Waits` say who holds and who waits for a mode; everything else in a `LOCK` is
bookkeeping about these two. `Consistent` is the state of that bookkeeping between two critical
sections and `Asked` the state in which one request has been counted but neither granted nor queued.
-/

namespace PgTuning.Lmgr

open PgTuning.Lib Lock Function Nat

/-! ## Masks -/

variable {m p : Nat} {lmt : LockMethod} {lock : Lock} {pls : List ProcLock}

@[simp] theorem getLsbD_or_lockbitOn (mask : LockMask) (hm : m < 32) (i : Nat) :
    (mask ||| lockbitOn m).getLsbD i = (mask.getLsbD i || decide (m = i)) :=
  getLsbD_or_twoPow mask hm i

@[simp] theorem getLsbD_and_lockbitOff (mask : LockMask) (m i : Nat) :
    (mask &&& lockbitOff m).getLsbD i = (mask.getLsbD i && decide (m ≠ i)) :=
  getLsbD_and_not_twoPow mask m i

theorem meets_iff (a b : LockMask) : meets a b ↔ ∃ i, a.getLsbD i ∧ b.getLsbD i := by
  rw [← and_ne_zero_iff, meets, bne_iff_ne]

def IsMode (lmt : LockMethod) (m : Nat) : Prop := 1 ≤ m ∧ m ≤ lmt.numLockModes

theorem IsMode.lt_max (h : IsMode lmt m) : m < maxLockmodes :=
  lt_of_le_of_lt h.2 lmt.numLockModes_lt

theorem IsMode.lt (h : IsMode lmt m) : m < 32 :=
  lt_trans h.lt_max (by decide)

theorem mem_modes : m ∈ lmt.modes ↔ IsMode lmt m := by
  rw [LockMethod.modes, List.mem_range'_1, IsMode]
  omega

/-- Mode `m` conflicts with mode `n`. -/
def Conflicts (lmt : LockMethod) (m n : Nat) : Prop := (lmt.conflictTab m).getLsbD n = true

theorem Conflicts.symm {n : Nat} (hm : IsMode lmt m) (hn : IsMode lmt n)
    (h : Conflicts lmt m n) : Conflicts lmt n m := by
  rw [Conflicts, lmt.symmetric n m hn.1 hn.2 hm.1 hm.2]
  exact h

/-! ## Holders and waiters -/

def Holds (lock : Lock) (p m : Nat) : Prop := (lock.holdMask p).getLsbD m = true

def Waits (lock : Lock) (p m : Nat) : Prop :=
  ∃ w ∈ lock.waitProcs, w.proc = p ∧ w.waitLockMode = m

def holders (lock : Lock) (m : Nat) : Nat :=
  lock.procLocks.countP fun pl => pl.holdMask.getLsbD m

/-- The number of other processes that hold a mode. -/
def otherHolders (lock : Lock) (p m : Nat) : Nat :=
  (lock.procLocks.filter fun pl => pl.proc ≠ p).countP fun pl => pl.holdMask.getLsbD m

def waiters (lock : Lock) (m : Nat) : Nat :=
  lock.waitProcs.countP fun w => w.waitLockMode == m

theorem waiters_pos_iff (lock : Lock) (m : Nat) : 0 < waiters lock m ↔ ∃ p, Waits lock p m := by
  rw [waiters, List.countP_pos_iff]
  constructor
  · rintro ⟨w, hw, hm⟩
    exact ⟨w.proc, w, hw, rfl, beq_iff_eq.mp hm⟩
  · rintro ⟨p, w, hw, -, hm⟩
    exact ⟨w, hw, beq_iff_eq.mpr hm⟩

/-- Every process has at most one `PROCLOCK`. -/
def UniqueProcs (lock : Lock) : Prop := (lock.procLocks.map ProcLock.proc).Nodup

/-- The modes found for a process in a list of `PROCLOCK`s. -/
def lookupHold (pls : List ProcLock) (p : Nat) : LockMask :=
  match pls.find? fun pl => pl.proc == p with
  | some pl => pl.holdMask
  | none => 0

theorem holdMask_eq (lock : Lock) (p : Nat) : lock.holdMask p = lookupHold lock.procLocks p := rfl

theorem lookupHold_cons (pl : ProcLock) (pls : List ProcLock) (p : Nat) :
    lookupHold (pl :: pls) p = if pl.proc = p then pl.holdMask else lookupHold pls p := by
  unfold lookupHold
  rw [List.find?_cons]
  by_cases h : pl.proc = p
  · simp [h]
  · rw [beq_false_of_ne h, if_neg h]

theorem lookupHold_of_notMem (h : p ∉ pls.map ProcLock.proc) : lookupHold pls p = 0 := by
  induction pls with
  | nil => rfl
  | cons pl pls ih =>
    rw [List.map_cons, List.mem_cons, not_or] at h
    rw [lookupHold_cons, if_neg (Ne.symm h.1), ih h.2]

theorem lookupHold_of_mem (hNodup : (pls.map ProcLock.proc).Nodup)
    {pl : ProcLock} (h : pl ∈ pls) : lookupHold pls pl.proc = pl.holdMask := by
  induction pls with
  | nil => cases h
  | cons x pls ih =>
    rw [List.map_cons, List.nodup_cons] at hNodup
    rw [lookupHold_cons]
    rcases List.mem_cons.mp h with hEq | hMem
    · rw [if_pos (congrArg ProcLock.proc hEq.symm), hEq]
    · rw [if_neg, ih hNodup.2 hMem]
      intro hEq
      exact hNodup.1 (hEq ▸ List.mem_map_of_mem hMem)

theorem hasProc_iff (lock : Lock) (p : Nat) :
    lock.hasProc p ↔ p ∈ lock.procLocks.map ProcLock.proc := by
  rw [hasProc, List.any_eq_true, List.mem_map]
  simp only [beq_iff_eq]

theorem hasProc_of_holds (h : Holds lock p m) : lock.hasProc p := by
  rw [hasProc_iff]
  by_contra hNo
  rw [Holds, holdMask_eq, lookupHold_of_notMem hNo] at h
  simp at h

/-- What is counted in a list with a key is the entry of one key and the others. -/
theorem countP_others {α : Type} [DecidableEq α] {key : α → Nat} {l : List α}
    (hNodup : (l.map key).Nodup) {a : α} (ha : a ∈ l) (q : α → Bool) :
    l.countP q = (q a).toNat + (l.filter fun b => key b ≠ key a).countP q := by
  have hErase : (l.filter fun b => key b ≠ key a) = l.erase a := by
    rw [(hNodup.of_map _).erase_eq_filter]
    apply List.filter_congr
    intro b hb
    have hInj : key b = key a ↔ b = a := ⟨List.inj_on_of_nodup_map hNodup hb ha, congrArg key⟩
    simp [hInj, bne, beq_eq_decide]
  rw [hErase, (List.perm_cons_erase ha).countP_eq, List.countP_cons, add_comm]
  cases q a <;> rfl

section

variable (h : UniqueProcs lock)
include h

/-- The holders of a mode are the process itself, if it holds it, and the others. -/
theorem holders_eq (p m : Nat) :
    holders lock m = ((lock.holdMask p).getLsbD m).toNat + otherHolders lock p m := by
  rw [holders, otherHolders, holdMask_eq]
  by_cases hProc : p ∈ lock.procLocks.map ProcLock.proc
  · obtain ⟨pl, hMem, rfl⟩ := List.mem_map.mp hProc
    rw [lookupHold_of_mem h hMem, countP_others h hMem]
  · have hOthers : ∀ pl ∈ lock.procLocks, decide (pl.proc ≠ p) := by
      intro pl hMem
      exact decide_eq_true fun hEq => hProc (hEq ▸ List.mem_map_of_mem hMem)
    rw [lookupHold_of_notMem hProc, List.filter_eq_self.mpr hOthers]
    simp

theorem holds_iff :
    Holds lock p m ↔ ∃ pl ∈ lock.procLocks, pl.proc = p ∧ pl.holdMask.getLsbD m := by
  constructor
  · intro hHolds
    obtain ⟨pl, hMem, rfl⟩ := List.mem_map.mp ((hasProc_iff lock p).mp (hasProc_of_holds hHolds))
    rw [Holds, holdMask_eq, lookupHold_of_mem h hMem] at hHolds
    exact ⟨pl, hMem, rfl, hHolds⟩
  · rintro ⟨pl, hMem, rfl, hBit⟩
    rw [Holds, holdMask_eq, lookupHold_of_mem h hMem]
    exact hBit

theorem otherHolders_pos_iff (p m : Nat) :
    0 < otherHolders lock p m ↔ ∃ q, q ≠ p ∧ Holds lock q m := by
  simp only [otherHolders, List.countP_pos_iff, List.mem_filter, decide_eq_true_eq, holds_iff h]
  constructor
  · rintro ⟨pl, ⟨hMem, hp⟩, hBit⟩
    exact ⟨pl.proc, hp, pl, hMem, rfl, hBit⟩
  · rintro ⟨-, hp, pl, hMem, rfl, hBit⟩
    exact ⟨pl, ⟨hMem, hp⟩, hBit⟩

theorem holders_pos_iff (m : Nat) :
    0 < holders lock m ↔ ∃ p, Holds lock p m := by
  simp only [holders, List.countP_pos_iff, holds_iff h]
  constructor
  · rintro ⟨pl, hMem, hBit⟩
    exact ⟨pl.proc, pl, hMem, rfl, hBit⟩
  · rintro ⟨-, pl, hMem, rfl, hBit⟩
    exact ⟨pl, hMem, hBit⟩

end

/-! ## The list of `PROCLOCK`s under its operations -/

theorem holdMask_enterProc (lock : Lock) (p q : Nat) :
    (lock.enterProc p).holdMask q = lock.holdMask q := by
  unfold Lock.enterProc
  split_ifs with hProc
  · rfl
  · rw [Bool.not_eq_true, hasProc] at hProc
    simp only [holdMask, List.find?_append]
    cases hFind : lock.procLocks.find? fun pl => pl.proc == q with
    | some pl => rfl
    | none =>
      by_cases hq : p = q
      · simp [hq]
      · simp [hq]

theorem hasProc_enterProc (lock : Lock) (p : Nat) : (lock.enterProc p).hasProc p := by
  unfold Lock.enterProc
  split_ifs with hProc
  · exact hProc
  · simp [hasProc]

theorem UniqueProcs.enterProc (h : UniqueProcs lock) (p : Nat) :
    UniqueProcs (lock.enterProc p) := by
  unfold Lock.enterProc
  split_ifs with hProc
  · exact h
  · rw [hasProc_iff] at hProc
    rw [UniqueProcs, List.map_append, List.nodup_append]
    refine ⟨h, List.nodup_singleton p, ?_⟩
    intro a ha b hb hEq
    rw [List.map_cons, List.map_nil, List.mem_singleton] at hb
    have hap : a = p := hEq.trans hb
    exact hProc (hap ▸ ha)

theorem map_proc_setHold (lock : Lock) (p : Nat) (v : LockMask) :
    (lock.setHold p v).procLocks.map ProcLock.proc = lock.procLocks.map ProcLock.proc := by
  rw [setHold, List.map_map]
  apply List.map_congr_left
  intro pl _
  rw [comp_apply]
  split_ifs <;> rfl

theorem holdMask_setHold (hProc : lock.hasProc p) (v : LockMask) (q : Nat) :
    (lock.setHold p v).holdMask q = if q = p then v else lock.holdMask q := by
  have hSame : ((fun pl : ProcLock => pl.proc == q) ∘ fun pl =>
      if pl.proc = p then { pl with holdMask := v } else pl) = fun pl => pl.proc == q := by
    funext pl
    rw [comp_apply]
    split_ifs <;> rfl
  simp only [holdMask, setHold, List.find?_map, hSame]
  cases hFind : lock.procLocks.find? fun pl => pl.proc == q with
  | none =>
    obtain ⟨pl, hMem, hEq⟩ := List.any_eq_true.mp hProc
    have hq : q ≠ p := fun hq => List.find?_eq_none.mp hFind pl hMem (hq ▸ hEq)
    rw [if_neg hq, Option.map_none]
  | some pl =>
    have hEq : pl.proc = q := by simpa using List.find?_some hFind
    rw [Option.map_some, hEq]
    split_ifs <;> rfl

theorem otherHolders_setHold (lock : Lock) (p : Nat) (v : LockMask) (m : Nat) :
    otherHolders (lock.setHold p v) p m = otherHolders lock p m := by
  rw [otherHolders, otherHolders, setHold, List.countP_filter, List.countP_filter,
    List.countP_map]
  congr 1
  funext pl
  by_cases hpl : pl.proc = p <;> simp [hpl]

theorem holdMask_removeProc (hNone : lock.holdMask p = 0) (q : Nat) :
    (lock.removeProc p).holdMask q = lock.holdMask q := by
  by_cases hq : q = p
  · rw [hq, hNone, holdMask_eq, lookupHold_of_notMem]
    simp [removeProc]
  · simp only [holdMask, removeProc, List.find?_filter]
    congr 2
    funext pl
    by_cases hpl : pl.proc = q <;> simp [hpl, hq]

theorem UniqueProcs.removeProc (h : UniqueProcs lock) (p : Nat) : UniqueProcs (lock.removeProc p) :=
  List.Nodup.sublist (List.Sublist.map _ List.filter_sublist) h

theorem hasProc_removeProc {q : Nat} (hq : q ≠ p) :
    (lock.removeProc p).hasProc q = lock.hasProc q := by
  rw [Bool.eq_iff_iff, hasProc_iff, hasProc_iff, removeProc]
  simp only [List.mem_map, List.mem_filter, decide_eq_true_eq]
  constructor
  · rintro ⟨pl, ⟨hMem, -⟩, hEq⟩
    exact ⟨pl, hMem, hEq⟩
  · rintro ⟨pl, hMem, hEq⟩
    exact ⟨pl, ⟨hMem, hEq ▸ hq⟩, hEq⟩

end PgTuning.Lmgr
