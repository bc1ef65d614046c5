import PgTuning.Lib.Ring
import PgTuning.Storage.SinvalCleanup

/-!
# The invariant of the shared invalidation queue

`Counters` and `Stored` say what the segment holds, `Locks` and `Table` who holds which lock and
which entry, and `Receiver` what a backend has read and may still read. A backend that is not in
reset state has its counter between `minMsgNum` and `maxMsgNum`, and everything in between is in the
buffer. There is one lemma per kind of step of a process that inserts or cleans up.
-/

namespace PgTuning.Sinval

open PgTuning.Lib List Function Pc Sys Nat

variable {Msg : Type}

/-! ## The invariant -/

namespace Pc

/-- The process holds `SInvalWriteLock`. -/
def holdsWrite : Pc Msg → Bool
  | .insertCheck _ _ => true
  | .insertWrite _ _ _ _ => true
  | .cleanup _ => true
  | _ => false

/-- The process holds `SInvalReadLock`. -/
def holdsRead : Pc Msg → Bool
  | .getFetch _ => true
  | .getTest _ _ => true
  | .getLoop _ _ _ => true
  | _ => false

/-- The process is in `SIGetDataEntries`. -/
def reads : Pc Msg → Bool
  | .getLock _ => true
  | pc => pc.holdsRead

/-- The messages copied to the buffer but not yet published. -/
def inflight : Pc Msg → List Msg
  | .insertWrite _ written _ _ => written
  | _ => []

/-- The messages for which room has been made but which are not copied yet. -/
def planned : Pc Msg → List Msg
  | .insertWrite _ _ batch _ => batch
  | _ => []

/-- The messages copied from the buffer but not yet returned. -/
def pending : Pc Msg → List Msg
  | .getLoop _ _ data => data
  | _ => []

/-- The local copy of `maxMsgNum` of a reader. -/
def fetchedMax : Pc Msg → Option Int
  | .getTest _ max => some max
  | .getLoop _ max _ => some max
  | _ => none

end Pc

/-- The messages returned since the last reset, or since the process registered. -/
def received : List (Option (List Msg)) → List Msg
  | [] => []
  | none :: _ => []
  | some data :: rest => received rest ++ data

namespace Sys

/-- What the process has taken out of the queue, including a call that has not
returned yet. -/
def taken (s : Sys Msg) (p : Pid) : List Msg :=
  received (s.results p) ++ (s.pc p).pending

/-- The writer's messages that are in the buffer but not published. -/
def inflight (s : Sys Msg) : List Msg :=
  match s.writeLock with
  | some p => (s.pc p).inflight
  | none => []

/-- The writer's messages for which room has been made. -/
def planned (s : Sys Msg) : List Msg :=
  match s.writeLock with
  | some p => (s.pc p).planned
  | none => []

end Sys

/-- The buffer holds what is still needed, and has room for what is planned. -/
structure Stored (base : Nat) (s : Sys Msg) : Prop where
  room : s.seg.maxMsgNum + s.inflight.length + s.planned.length ≤
    s.seg.minMsgNum + maxNumMessages
  holds : Ring.Holds maxNumMessages s.seg.buffer (base + s.seg.minMsgNum.toNat)
    (s.log ++ s.inflight)
  writing : ∀ p max written batch data, s.pc p = .insertWrite max written batch data →
    max = s.seg.maxMsgNum + written.length

/-- The locks are held where the code holds them. -/
structure Locks (s : Sys Msg) : Prop where
  writer : ∀ p, s.writeLock = some p ↔ (s.pc p).holdsWrite = true
  reader : ∀ p, p ∈ s.readers ↔ (s.pc p).holdsRead = true

/-- The entries of the `procState` array belong to the registered processes. -/
structure Table (s : Sys Msg) : Prop where
  active : ∀ i, s.seg.lastBackend ≤ i → (s.seg.procState i).procPid = none
  owner : ∀ i p, (s.seg.procState i).procPid = some p →
    s.pc p ≠ .unregistered ∧ s.myBackendId p = i
  mine : ∀ p, s.pc p ≠ .unregistered → (s.stateP p).procPid = some p

/-- A backend that reads: it has taken consecutive messages, and while it is not in
reset state its counter names the next one. -/
structure Receiver (base : Nat) (s : Sys Msg) (p : Pid) : Prop where
  consecutive : s.taken p <+: s.log.drop (s.since p)
  since : s.since p ≤ s.log.length
  live : (s.stateP p).resetState = false →
    base + (s.stateP p).nextMsgNum = s.since p + (s.taken p).length ∧
      s.seg.minMsgNum ≤ (s.stateP p).nextMsgNum ∧
      (s.stateP p).nextMsgNum ≤ s.seg.maxMsgNum
  fetched : ∀ max, (s.pc p).fetchedMax = some max →
    base + max = s.fetched p ∧ s.seg.minMsgNum ≤ max ∧ max ≤ s.seg.maxMsgNum ∧
      ((s.stateP p).resetState = false → (s.stateP p).nextMsgNum ≤ max)
  looping : ∀ datasize max data, s.pc p = .getLoop datasize max data →
    (s.stateP p).resetState = false ∧ data.length ≤ datasize

/-- The invariant; `base` is by how much the counters have been decremented. -/
structure Inv (base : Nat) (s : Sys Msg) : Prop where
  counters : Counters base s.seg s.log
  stored : Stored base s
  locks : Locks s
  table : Table s
  receives : ∀ p, s.pc p ≠ .unregistered → (s.stateP p).sendOnly = false →
    Receiver base s p
  sends : ∀ p, s.pc p ≠ .unregistered → (s.stateP p).sendOnly = true →
    (s.pc p).reads = false

section Moves

variable {base : Nat} {s s' : Sys Msg} {p q : Pid} {pc' : Pc Msg} {wl : Option Pid} {ft : Pid → Nat}
  {rd : List Pid} {pc : Pc Msg}

@[simp] theorem setPc_self : (s.setPc p pc').pc p = pc' := by
  simp [setPc]

theorem setPc_of_ne (h : q ≠ p) : (s.setPc p pc').pc q = s.pc q := by
  simp [setPc, update_of_ne h]

theorem forall_setPc {R : Pid → Pc Msg → Prop} (hSelf : R p pc')
    (hOthers : ∀ q, q ≠ p → R q (s.pc q)) (q : Pid) : R q ((s.setPc p pc').pc q) :=
  (forall_update_iff s.pc R).mpr ⟨hSelf, hOthers⟩ q

/-- What belongs to the process is the same in both states. -/
structure Same (s s' : Sys Msg) (q : Pid) : Prop where
  state : s'.stateP q = s.stateP q
  pc : s'.pc q = s.pc q
  results : s'.results q = s.results q
  since : s'.since q = s.since q
  fetched : s'.fetched q = s.fetched q

/-- What a receiver knows survives whatever leaves its own data alone and only
adds messages. -/
theorem Receiver.frame (h : Receiver base s q) (hSame : Same s s' q)
    (hMin : s'.seg.minMsgNum = s.seg.minMsgNum) (hMax : s.seg.maxMsgNum ≤ s'.seg.maxMsgNum)
    (hLog : s.log <+: s'.log) : Receiver base s' q := by
  have hTaken : s'.taken q = s.taken q := by
    unfold taken
    rw [hSame.results, hSame.pc]
  have hLen := hLog.length_le
  refine ⟨?_, ?_, ?_, ?_, ?_⟩
  · rw [hTaken, hSame.since]
    exact h.consecutive.trans (List.IsPrefix.drop hLog _)
  · rw [hSame.since]
    exact h.since.trans hLen
  · rw [hSame.state, hTaken, hSame.since, hMin]
    intro hReset
    obtain ⟨hNext, hLow, hHigh⟩ := h.live hReset
    exact ⟨hNext, hLow, by omega⟩
  · rw [hSame.pc, hSame.state, hSame.fetched, hMin]
    intro max hSome
    obtain ⟨hTop, hLow, hHigh, hNext⟩ := h.fetched max hSome
    exact ⟨hTop, hLow, by omega, hNext⟩
  · rw [hSame.pc, hSame.state]
    exact h.looping

/-- What a backend at `pc` has in its local copy of `maxMsgNum`, and has read. -/
structure Pc.Tracks (pc : Pc Msg) (base : Nat) (seg : SISeg Msg) (st : ProcState) (n : Nat) :
    Prop where
  fetched : ∀ max, pc.fetchedMax = some max → base + max = n ∧ seg.minMsgNum ≤ max ∧
    max ≤ seg.maxMsgNum ∧ (st.resetState = false → st.nextMsgNum ≤ max)
  looping : ∀ datasize max data, pc = .getLoop datasize max data →
    st.resetState = false ∧ data.length ≤ datasize

theorem Pc.tracks_of_none {seg : SISeg Msg} {st : ProcState} {n : Nat} (h : pc.fetchedMax = none) :
    pc.Tracks base seg st n := by
  refine ⟨fun max hSome => ?_, fun datasize max data hEq => ?_⟩
  · rw [h] at hSome
    cases hSome
  · rw [hEq] at h
    cases h

/-- A receiver from its entry, its place and what it has taken. -/
theorem receiver_of {st : ProcState} {since : Nat} (taken : List Msg) (hState : s'.stateP p = st)
    (hTaken : s'.taken p = taken) (hSince : s'.since p = since) (hPc : s'.pc p = pc')
    (hConsecutive : taken <+: s'.log.drop since) (hLe : since ≤ s'.log.length)
    (hLive : st.resetState = false → base + st.nextMsgNum = since + taken.length ∧
      s'.seg.minMsgNum ≤ st.nextMsgNum ∧ st.nextMsgNum ≤ s'.seg.maxMsgNum)
    (hTracks : pc'.Tracks base s'.seg st (s'.fetched p)) : Receiver base s' p := by
  subst hState hTaken hSince hPc
  exact ⟨hConsecutive, hLe, hLive, hTracks.fetched, hTracks.looping⟩

theorem Inv.moved (h : Inv base s) (hCounters : Counters base s'.seg s'.log)
    (hStored : Stored base s') (hLocks : Locks s') (hTable : Table s')
    (hSame : ∀ q, q ≠ p → s'.pc q ≠ .unregistered → Same s s' q)
    (hMin : s'.seg.minMsgNum = s.seg.minMsgNum) (hMax : s.seg.maxMsgNum ≤ s'.seg.maxMsgNum)
    (hLog : s.log <+: s'.log)
    (hReceives : s'.pc p ≠ .unregistered → (s'.stateP p).sendOnly = false → Receiver base s' p)
    (hSends : (s'.stateP p).sendOnly → (s'.pc p).reads = false) : Inv base s' := by
  refine ⟨hCounters, hStored, hLocks, hTable, fun q hReg hSend => ?_, fun q hReg hSend => ?_⟩
  · by_cases hEq : q = p
    · rw [hEq] at hReg hSend ⊢
      exact hReceives hReg hSend
    · have hq := hSame q hEq hReg
      exact (h.receives q (hq.pc ▸ hReg) (hq.state ▸ hSend)).frame hq hMin hMax hLog
  · by_cases hEq : q = p
    · rw [hEq] at hSend ⊢
      exact hSends hSend
    · have hq := hSame q hEq hReg
      rw [hq.pc]
      exact h.sends q (hq.pc ▸ hReg) (hq.state ▸ hSend)

theorem Table.setPc (h : Table s) (hReg : s.pc p ≠ .unregistered)
    (hReg' : pc' ≠ .unregistered) : Table (s.setPc p pc') where
  active := h.active
  owner := fun i q hq => ⟨forall_setPc
    (R := fun q pc => (s.seg.procState i).procPid = some q → pc ≠ .unregistered)
    (fun _ => hReg') (fun q _ hq => (h.owner i q hq).1) q hq, (h.owner i q hq).2⟩
  mine := forall_setPc (R := fun q pc => pc ≠ .unregistered → (s.stateP q).procPid = some q)
    (fun _ => h.mine p hReg) fun q _ => h.mine q

theorem Table.setSeg (h : Table s) {seg : SISeg Msg} (hLast : seg.lastBackend = s.seg.lastBackend)
    (hPids : ∀ i, (seg.procState i).procPid = (s.seg.procState i).procPid) :
    Table { s with seg } where
  active := fun i hi => (hPids i).trans (h.active i (hLast ▸ hi))
  owner := fun i q hq => h.owner i q ((hPids i).symm.trans hq)
  mine := fun q hq => (hPids _).trans (h.mine q hq)

/-- A process moves without touching the queue; it may take or release locks. -/
theorem Inv.move (h : Inv base s) (hReg : s.pc p ≠ .unregistered) (hReg' : pc' ≠ .unregistered)
    (hft : ∀ q, q ≠ p → ft q = s.fetched q)
    (hStored : Stored base { s.setPc p pc' with writeLock := wl, readers := rd, fetched := ft })
    (hLocks : Locks { s.setPc p pc' with writeLock := wl, readers := rd, fetched := ft })
    (hPending : pc'.pending = (s.pc p).pending)
    (hTracks : pc'.Tracks base s.seg (s.stateP p) (ft p))
    (hSends : (s.stateP p).sendOnly → pc'.reads = false) :
    Inv base { s.setPc p pc' with writeLock := wl, readers := rd, fetched := ft } := by
  have hPc : (s.setPc p pc').pc p = pc' := setPc_self
  refine h.moved { h.counters with } hStored hLocks { h.table.setPc hReg hReg' with }
    (fun q hq _ => ⟨rfl, setPc_of_ne hq, rfl, rfl, hft q hq⟩) rfl le_rfl
    (prefix_refl _) (fun _ hSend => ?_) fun hSend => ?_
  · have hOld := h.receives p hReg hSend
    refine receiver_of (s.taken p) rfl ?_ rfl hPc hOld.consecutive hOld.since hOld.live hTracks
    show received (s.results p) ++ ((s.setPc p pc').pc p).pending = _
    rw [hPc, hPending]
    rfl
  · rw [hPc]
    exact hSends hSend

theorem Locks.move (h : Locks s)
    (hWrite : wl = some p ↔ pc'.holdsWrite) (hRead : p ∈ rd ↔ pc'.holdsRead)
    (hOthers : ∀ q, q ≠ p → (wl = some q ↔ s.writeLock = some q) ∧ (q ∈ rd ↔ q ∈ s.readers)) :
    Locks { s.setPc p pc' with writeLock := wl, readers := rd, fetched := ft } where
  writer := forall_setPc (R := fun q pc => wl = some q ↔ pc.holdsWrite) hWrite
    fun q hq => (hOthers q hq).1.trans (h.writer q)
  reader := forall_setPc (R := fun q pc => q ∈ rd ↔ pc.holdsRead) hRead
    fun q hq => (hOthers q hq).2.trans (h.reader q)

theorem Locks.setPc (h : Locks s) (hWrite : pc'.holdsWrite = (s.pc p).holdsWrite)
    (hRead : pc'.holdsRead = (s.pc p).holdsRead) : Locks (s.setPc p pc') :=
  h.move (hWrite ▸ h.writer p) (hRead ▸ h.reader p) fun _ _ => ⟨Iff.rfl, Iff.rfl⟩

/-- Only the holder of the write lock can be writing. -/
theorem Locks.holder (h : Locks s) (hWrite : (s.pc q).holdsWrite) : s.writeLock = some q :=
  (h.writer q).mpr hWrite

theorem inflight_of_lock (hLock : s.writeLock = some p) : s.inflight = (s.pc p).inflight := by
  simp [Sys.inflight, hLock]

theorem planned_of_lock (hLock : s.writeLock = some p) : s.planned = (s.pc p).planned := by
  simp [Sys.planned, hLock]

theorem Pc.not_writing (h : pc.holdsWrite = false) :
    pc.inflight = [] ∧ pc.planned = [] ∧
      ∀ max written batch data, pc ≠ .insertWrite max written batch data := by
  cases pc <;> simp [holdsWrite, inflight, planned] at h ⊢

/-- What the writer has copied or planned, when it has the same place or another process moves. -/
theorem ofWriter_setPc (g : Pc Msg → List Msg) (hg : g pc' = g (s.pc p)) :
    (match s.writeLock with | some q => g ((s.setPc p pc').pc q) | none => []) =
      match s.writeLock with | some q => g (s.pc q) | none => [] := by
  cases s.writeLock with
  | none => rfl
  | some q => exact forall_setPc (R := fun q pc => g pc = g (s.pc q)) hg (fun _ _ => rfl) q

theorem Stored.writing_setPc (h : Stored base s)
    (hNew : ∀ max written batch data, pc' = .insertWrite max written batch data →
      max = s.seg.maxMsgNum + written.length) :
    ∀ q max written batch data, (s.setPc p pc').pc q = .insertWrite max written batch data →
      max = s.seg.maxMsgNum + written.length :=
  forall_setPc (R := fun _ pc => ∀ max written batch data,
    pc = .insertWrite max written batch data → max = s.seg.maxMsgNum + written.length) hNew
    fun q _ => h.writing q

theorem Stored.setPc (h : Stored base s) (hOld : (s.pc p).holdsWrite = false)
    (hNew : pc'.holdsWrite = false) : Stored base (s.setPc p pc') := by
  obtain ⟨hIn, hPlan, -⟩ := not_writing hOld
  obtain ⟨hIn', hPlan', hNot⟩ := not_writing hNew
  have hInflight : (s.setPc p pc').inflight = s.inflight :=
    ofWriter_setPc inflight (hIn'.trans hIn.symm)
  have hPlanned : (s.setPc p pc').planned = s.planned :=
    ofWriter_setPc planned (hPlan'.trans hPlan.symm)
  refine ⟨?_, ?_, h.writing_setPc fun _ _ _ _ hEq => absurd hEq (hNot _ _ _ _)⟩
  · rw [hInflight, hPlanned]
    exact h.room
  · rw [hInflight]
    exact h.holds

/-- A process moves to a place where it does not read. -/
theorem Inv.moveOut (h : Inv base s) (hReg : s.pc p ≠ .unregistered)
    (hReg' : pc' ≠ .unregistered) (hStored : Stored base { s.setPc p pc' with writeLock := wl })
    (hLocks : Locks { s.setPc p pc' with writeLock := wl }) (hOld : (s.pc p).pending = [])
    (hRead : pc'.holdsRead = false) (hSends : (s.stateP p).sendOnly → pc'.reads = false) :
    Inv base { s.setPc p pc' with writeLock := wl } := by
  have hNone : pc'.pending = [] ∧ pc'.fetchedMax = none := by
    cases pc' <;> simp [holdsRead, pending, fetchedMax] at hRead ⊢
  exact h.move hReg hReg' (fun _ _ => rfl) hStored hLocks (hNone.1.trans hOld.symm)
    (tracks_of_none hNone.2) hSends

theorem Inv.call (h : Inv base s) (hReg : s.pc p = .ready) (hReg' : pc' ≠ .unregistered)
    (hWrite : pc'.holdsWrite = false) (hRead : pc'.holdsRead = false)
    (hSends : (s.stateP p).sendOnly → pc'.reads = false) : Inv base (s.setPc p pc') :=
  h.moveOut (by simp [hReg]) hReg' (h.stored.setPc (by rw [hReg]; rfl) hWrite)
    (h.locks.setPc (by rw [hReg, hWrite]; rfl) (by rw [hReg, hRead]; rfl)) (by rw [hReg]; rfl)
    hRead hSends

/-- The process holds the write lock without writing: it makes room or cleans up. -/
def Pc.Cleaning (pc : Pc Msg) : Prop :=
  (∃ batch data, pc = .insertCheck batch data) ∨ ∃ minFree, pc = .cleanup minFree

theorem Pc.Cleaning.facts (h : pc.Cleaning) :
    pc ≠ .unregistered ∧ pc.holdsWrite ∧ pc.holdsRead = false ∧
      pc.reads = false ∧ pc.inflight = [] ∧ pc.planned = [] ∧ pc.pending = [] ∧
      ∀ max written batch data, pc ≠ .insertWrite max written batch data := by
  rcases h with ⟨batch, data, rfl⟩ | ⟨minFree, rfl⟩ <;>
    simp [holdsWrite, holdsRead, reads, inflight, planned, pending]

/-- While the holder of the write lock is not writing, nobody is. -/
theorem Locks.cleaning (h : Locks s) (hpc : (s.pc p).Cleaning) :
    s.writeLock = some p ∧ s.inflight = [] ∧ s.planned = [] ∧
      ∀ q max written batch data, s.pc q ≠ .insertWrite max written batch data := by
  obtain ⟨-, hWrite, -, -, hInflight, hPlanned, -, hNot⟩ := hpc.facts
  have hLock := h.holder hWrite
  refine ⟨hLock, (inflight_of_lock hLock).trans hInflight,
    (planned_of_lock hLock).trans hPlanned, fun q max written batch data hEq => ?_⟩
  have hIs : s.writeLock = some q := h.holder (by rw [hEq]; rfl)
  obtain rfl := Option.some.inj (hLock.symm.trans hIs)
  exact hNot _ _ _ _ hEq

theorem Inv.lockWrite (h : Inv base s) (hFree : s.writeLock = none)
    (hReg : s.pc p ≠ .unregistered) (hOld : (s.pc p).reads = false)
    (hNew : pc'.Cleaning) : Inv base { s.setPc p pc' with writeLock := some p } := by
  obtain ⟨hReg', hWrite, hRead, hReads, hInflight, hPlanned, -, hWriting⟩ := hNew.facts
  have hOldRead : (s.pc p).holdsRead = false ∧ (s.pc p).pending = [] := by
    cases hpc : s.pc p <;> simp [hpc, reads, holdsRead, pending] at hOld ⊢
  have hStored : Stored base { s.setPc p pc' with writeLock := some p } := by
    have hIn : Sys.inflight { s.setPc p pc' with writeLock := some p } = s.inflight := by
      show ((s.setPc p pc').pc p).inflight = _
      rw [setPc_self, hInflight]
      simp [Sys.inflight, hFree]
    have hPlan : Sys.planned { s.setPc p pc' with writeLock := some p } = s.planned := by
      show ((s.setPc p pc').pc p).planned = _
      rw [setPc_self, hPlanned]
      simp [Sys.planned, hFree]
    refine ⟨?_, ?_, h.stored.writing_setPc fun _ _ _ _ hEq => absurd hEq (hWriting _ _ _ _)⟩
    · rw [hIn, hPlan]
      exact h.stored.room
    · rw [hIn]
      exact h.stored.holds
  refine h.moveOut hReg hReg' hStored (h.locks.move (by simp [hWrite]) ?_ fun q hq => ⟨?_, .rfl⟩)
    hOldRead.2 hRead fun _ => hReads
  · exact (h.locks.reader p).trans (by rw [hRead, hOldRead.1])
  · simp [hFree, Ne.symm hq]

/-- The holder of the write lock gives it up and waits, or is done. -/
theorem Inv.unlockWrite (h : Inv base s) (hOld : (s.pc p).Cleaning) (hReg' : pc' ≠ .unregistered)
    (hWrite : pc'.holdsWrite = false) (hReads : pc'.reads = false) :
    Inv base { s.setPc p pc' with writeLock := none } := by
  obtain ⟨hReg, -, hOldRead, -, -, -, hPending, -⟩ := hOld.facts
  obtain ⟨hLock, hIn, hPlan, -⟩ := h.locks.cleaning hOld
  have hRead : pc'.holdsRead = false := by
    cases pc' <;> simp [reads, holdsRead] at hReads ⊢
  have hStored : Stored base { s.setPc p pc' with writeLock := none } := by
    have hRoom := h.stored.room
    have hHolds := h.stored.holds
    rw [hIn, hPlan] at hRoom
    rw [hIn] at hHolds
    exact ⟨hRoom, hHolds, h.stored.writing_setPc fun _ _ _ _ hEq =>
      absurd hEq ((not_writing hWrite).2.2 _ _ _ _)⟩
  refine h.moveOut hReg hReg' hStored (h.locks.move (by simp [hWrite]) ?_ fun q hq => ⟨?_, .rfl⟩)
    hPending hRead fun _ => hReads
  · exact (h.locks.reader p).trans (by rw [hRead, hOldRead])
  · simp [hLock, Ne.symm hq]

end Moves

/-! ## The writer's steps -/

variable {base : Nat} {s : Sys Msg} {p : Pid}

variable (h : Inv base s) {max : Int} {written : List Msg}
include h

/-- The entries whose counters count belong to receivers. -/
theorem Inv.live_entry (i : Nat) (hl : (s.seg.procState i).Live) :
    s.seg.minMsgNum ≤ (s.seg.procState i).nextMsgNum ∧ i < s.seg.lastBackend := by
  obtain ⟨q, hq⟩ := Option.ne_none_iff_exists'.mp hl.1
  obtain ⟨hReg, rfl⟩ := h.table.owner i q hq
  refine ⟨((h.receives q hReg hl.2.2).live hl.2.1).2.1, not_le.mp fun hi => ?_⟩
  exact hl.1 (h.table.active _ hi)

theorem Inv.cleanedUp (minFree : Int) :
    ∃ base', Counters base' (s.seg.siCleanupQueue minFree).1 s.log ∧
      CleanedUp base base' s.seg (s.seg.siCleanupQueue minFree).1 := by
  have hRoom := h.stored.room
  exact siCleanupQueue_spec minFree h.counters (by omega) h.live_entry

/-- The body of `SICleanupQueue`, while nobody reads. -/
theorem Inv.clean (hpc : (s.pc p).Cleaning) (hReaders : s.readers = []) (minFree : Int) :
    ∃ base', Inv base' { s with seg := (s.seg.siCleanupQueue minFree).1 } := by
  obtain ⟨-, hIn, hPlan, hNoWriter⟩ := h.locks.cleaning hpc
  have hRoom := h.stored.room
  rw [hIn, hPlan] at hRoom
  obtain ⟨base', hCounters, hClean⟩ := h.cleanedUp minFree
  generalize (s.seg.siCleanupQueue minFree).1 = seg' at hCounters hClean
  have hTop := h.counters.top
  have hTop' := hCounters.top
  have hRaised := hClean.raised
  have hLow := h.counters.low
  have hNoRead : ∀ q, (s.pc q).holdsRead = false := by
    intro q
    refine Bool.eq_false_iff.mpr fun hRead => ?_
    have hMem := (h.locks.reader q).mpr hRead
    rw [hReaders] at hMem
    cases hMem
  refine ⟨base', hCounters, ⟨?_, ?_, fun q _ _ _ _ hEq => absurd hEq (hNoWriter q _ _ _ _)⟩,
    { h.locks with }, h.table.setSeg hClean.lastBackend hClean.procPid, ?_, ?_⟩
  · show seg'.maxMsgNum + s.inflight.length + s.planned.length ≤ seg'.minMsgNum + maxNumMessages
    rw [hIn, hPlan]
    omega
  · show Ring.Holds maxNumMessages seg'.buffer (base' + seg'.minMsgNum.toNat) (s.log ++ s.inflight)
    rw [hClean.buffer]
    exact h.stored.holds.mono (by omega)
  · intro q hq hSend
    have hRec := h.receives q hq ((hClean.sendOnly _).symm.trans hSend)
    refine ⟨hRec.consecutive, hRec.since, ?_, ?_, ?_⟩
    · intro hReset
      have hPid := (hClean.procPid _).trans (h.table.mine q hq)
      obtain ⟨hOld, hNext, hMin⟩ := hClean.live (s.myBackendId q)
        ⟨by rw [hPid]; simp, hReset, hSend⟩
      obtain ⟨hTaken, -, hHigh⟩ := hRec.live hOld.2.1
      have hNext : base' + (seg'.procState (s.myBackendId q)).nextMsgNum =
          base + (s.stateP q).nextMsgNum := hNext
      refine ⟨?_, hMin, ?_⟩
      · show base' + (seg'.procState (s.myBackendId q)).nextMsgNum = s.since q + (s.taken q).length
        omega
      · show (seg'.procState (s.myBackendId q)).nextMsgNum ≤ seg'.maxMsgNum
        omega
    · intro max hSome
      have hRead := hNoRead q
      cases hPc : s.pc q <;> simp [hPc, fetchedMax, holdsRead] at hSome hRead
    · intro datasize max data hEq
      have hRead := hNoRead q
      rw [show s.pc q = .getLoop datasize max data from hEq] at hRead
      cases hRead
  · exact fun q hq hSend => h.sends q hq ((hClean.sendOnly _).symm.trans hSend)

/-- The holder of the write lock goes on to where it still holds it, and the buffer has what it has
copied by then. -/
theorem Inv.goOn {pc' : Pc Msg} (hOld : (s.pc p).holdsWrite) (hNew : pc'.holdsWrite)
    (hRoom : s.seg.maxMsgNum + pc'.inflight.length + pc'.planned.length ≤
      s.seg.minMsgNum + maxNumMessages)
    (hHolds : Ring.Holds maxNumMessages s.seg.buffer (base + s.seg.minMsgNum.toNat)
      (s.log ++ pc'.inflight))
    (hWriting : ∀ max written batch data, pc' = .insertWrite max written batch data →
      max = s.seg.maxMsgNum + written.length) : Inv base (s.setPc p pc') := by
  have hOut : ∀ pc : Pc Msg, pc.holdsWrite → pc ≠ .unregistered ∧ pc.holdsRead = false ∧
      pc.reads = false ∧ pc.pending = [] := by
    intro pc hWrite
    cases pc <;> simp [holdsWrite, holdsRead, reads, pending] at hWrite ⊢
  obtain ⟨hReg, hRead, -, hPending⟩ := hOut _ hOld
  obtain ⟨hReg', hRead', hReads', -⟩ := hOut _ hNew
  have hLock : (s.setPc p pc').writeLock = some p := h.locks.holder hOld
  have hIn := inflight_of_lock hLock
  have hPlan := planned_of_lock hLock
  rw [setPc_self] at hIn hPlan
  refine h.moveOut hReg hReg' ⟨?_, ?_, h.stored.writing_setPc hWriting⟩
    (h.locks.setPc (hNew.trans hOld.symm) (hRead'.trans hRead.symm)) hPending hRead' fun _ => hReads'
  · exact (congrArg₂ (s.seg.maxMsgNum + length · + length ·) hIn hPlan).trans_le hRoom
  · exact (congrArg (s.log ++ ·) hIn).symm ▸ hHolds

/-- There is room: the batch can be copied. -/
theorem Inv.startWriting {batch data : List Msg} (hpc : s.pc p = .insertCheck batch data)
    (hRoom : s.seg.maxMsgNum - s.seg.minMsgNum + batch.length ≤ maxNumMessages) :
    Inv base (s.setPc p (.insertWrite s.seg.maxMsgNum [] batch data)) := by
  have hHolds := h.stored.holds
  rw [(h.locks.cleaning (.inl ⟨batch, data, hpc⟩)).2.1] at hHolds
  refine h.goOn (by rw [hpc]; rfl) rfl ?_ hHolds fun max written batch' data' hEq => ?_
  · show s.seg.maxMsgNum + (0 : Nat) + batch.length ≤ s.seg.minMsgNum + maxNumMessages
    omega
  · injection hEq with hMax hWritten
    rw [← hMax, ← hWritten]
    exact (Int.add_zero _).symm

omit h in
theorem slot_eq {base n : Nat} {k : Int} (hAligned : base % maxNumMessages = 0) (hk : 0 ≤ k)
    (hn : base + k = n) : k.toNat % maxNumMessages = n % maxNumMessages := by
  have hEq : n = base + k.toNat := by omega
  rw [hEq, add_mod, hAligned, zero_add, mod_mod]

/-- The buffer of another segment, the rest of the state unchanged. -/
theorem Inv.setBuffer {buffer : Nat → Msg}
    (hHolds : Ring.Holds maxNumMessages buffer (base + s.seg.minMsgNum.toNat)
      (s.log ++ s.inflight)) :
    Inv base { s with seg := { s.seg with buffer := buffer } } where
  counters := { h.counters with }
  stored := { h.stored with holds := hHolds }
  locks := { h.locks with }
  table := { h.table with }
  receives := fun q hq hSend => (h.receives q hq hSend).frame ⟨rfl, rfl, rfl, rfl, rfl⟩ rfl
    le_rfl (prefix_refl _)
  sends := h.sends

/-- One message is copied to the next slot, which no one needs any more. -/
theorem Inv.writeOne {batch data : List Msg}
    {m : Msg} (hpc : s.pc p = .insertWrite max written (m :: batch) data) :
    Inv base { s.setPc p (.insertWrite (max + 1) (written ++ [m]) batch data) with
      seg := { s.seg with
        buffer := update s.seg.buffer (max.toNat % maxNumMessages) m } } := by
  have hLock : s.writeLock = some p := h.locks.holder (by rw [hpc]; rfl)
  have hIn : s.inflight = written := by rw [inflight_of_lock hLock, hpc]; rfl
  have hPlan : s.planned = m :: batch := by
    rw [planned_of_lock hLock, hpc]
    rfl
  have hMax := h.stored.writing p max written (m :: batch) data hpc
  have hTop := h.counters.top
  have hLow := h.counters.low
  have hOrdered := h.counters.ordered
  have hRoom := h.stored.room
  have hHolds := h.stored.holds
  rw [hIn, hPlan] at hRoom
  rw [hIn] at hHolds
  simp only [length_cons] at hRoom
  have hSlot : max.toNat % maxNumMessages = (s.log ++ written).length % maxNumMessages := by
    apply slot_eq h.counters.aligned (by omega)
    rw [length_append]
    omega
  have hPush : Ring.Holds maxNumMessages
      (update s.seg.buffer (max.toNat % maxNumMessages) m)
      (base + s.seg.minMsgNum.toNat) (s.log ++ written ++ [m]) := by
    rw [hSlot]
    apply hHolds.push
    rw [length_append]
    omega
  have hCopied := h.setBuffer (hIn ▸ hPush.left)
  refine hCopied.goOn (by show (s.pc p).holdsWrite = true; rw [hpc]; rfl) rfl ?_
    (append_assoc .. ▸ hPush) fun max' written' batch' data' hEq => ?_
  · show s.seg.maxMsgNum + ((written ++ [m]).length : Int) + batch.length ≤
      s.seg.minMsgNum + maxNumMessages
    rw [length_append, length_singleton]
    omega
  · injection hEq with hMax' hWritten'
    rw [← hMax', ← hWritten', length_append]
    show max + 1 = s.seg.maxMsgNum + ((written.length + 1 : Nat) : Int)
    omega

/-- What has been copied is published. -/
theorem Inv.extend (hEmpty : s.inflight = [] ∧ s.planned = [])
    (hWriter : ∀ q max written batch data, s.pc q ≠ .insertWrite max written batch data)
    (hMax : max = s.seg.maxMsgNum + written.length) (hRoom : max ≤ s.seg.minMsgNum + maxNumMessages)
    (hHolds : Ring.Holds maxNumMessages s.seg.buffer (base + s.seg.minMsgNum.toNat)
      (s.log ++ written)) :
    Inv base { s with
      seg := { s.seg with maxMsgNum := max }, log := s.log ++ written } := by
  have hTop := h.counters.top
  have hOrdered := h.counters.ordered
  refine ⟨⟨h.counters.aligned, ?_, h.counters.low, ?_, h.counters.small⟩,
    ⟨?_, ?_, fun q _ _ _ _ hEq => absurd hEq (hWriter q _ _ _ _)⟩, { h.locks with },
    { h.table with }, ?_, h.sends⟩
  · rw [length_append]
    show base + max = _
    omega
  · show s.seg.minMsgNum ≤ max
    omega
  · show max + s.inflight.length + s.planned.length ≤ s.seg.minMsgNum + maxNumMessages
    rw [hEmpty.1, hEmpty.2]
    simpa using hRoom
  · show Ring.Holds _ _ _ ((s.log ++ written) ++ s.inflight)
    rw [hEmpty.1, append_nil]
    exact hHolds
  · intro q hq hSend
    exact (h.receives q hq hSend).frame ⟨rfl, rfl, rfl, rfl, rfl⟩ rfl
      (by show s.seg.maxMsgNum ≤ max; omega) (prefix_append _ _)

omit h in
theorem nextBatch_outside (data : List Msg) :
    nextBatch data ≠ .unregistered ∧ (nextBatch data).holdsWrite = false ∧
      (nextBatch data).reads = false := by
  unfold nextBatch
  cases data <;> simp [holdsWrite, reads, holdsRead]

/-- The last message of the batch has been copied: the new `maxMsgNum` is
published and the lock released. -/
theorem Inv.publish {data : List Msg} (hpc : s.pc p = .insertWrite max written [] data) :
    Inv base { s.setPc p (nextBatch data) with
      seg := { s.seg with maxMsgNum := max }
      writeLock := none
      log := s.log ++ written } := by
  have hWrite : (s.pc p).holdsWrite := by rw [hpc]; rfl
  have hIn : s.inflight = written := by rw [inflight_of_lock (h.locks.holder hWrite), hpc]; rfl
  have hMax := h.stored.writing p max written [] data hpc
  have hRoom := h.stored.room
  have hHolds := h.stored.holds
  rw [hIn] at hRoom hHolds
  -- First the copy loop ends, then the messages become visible, then the lock is free.
  have hEnded : Inv base (s.setPc p (.insertCheck [] data)) :=
    h.goOn hWrite rfl (by show s.seg.maxMsgNum + (0 : Nat) + (0 : Nat) ≤ _; omega)
      ((append_nil s.log).symm ▸ hHolds.left) fun _ _ _ _ hEq => by cases hEq
  have hCleaning : ((s.setPc p (.insertCheck [] data)).pc p).Cleaning := .inl ⟨[], data, setPc_self⟩
  obtain ⟨-, hIn', hPlan', hNoWriter⟩ := hEnded.locks.cleaning hCleaning
  have hVisible := hEnded.extend ⟨hIn', hPlan'⟩ hNoWriter hMax
    (by show max ≤ s.seg.minMsgNum + maxNumMessages; omega) hHolds
  have hOut := nextBatch_outside data
  have hDone := hVisible.unlockWrite hCleaning hOut.1 hOut.2.1 hOut.2.2
  simpa [setPc] using hDone

end PgTuning.Sinval
