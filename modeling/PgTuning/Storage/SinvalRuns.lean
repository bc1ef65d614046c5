import PgTuning.Lib.Run
import PgTuning.Storage.SinvalInvariant
import PgTuning.Storage.SinvalSent

/-!
# The shared invalidation queue loses nothing

The steps of readers and of processes that come and go keep the invariant, hence so
does every interleaving.
-/

namespace PgTuning.Sinval

open PgTuning.Lib List Function Option

variable {Msg : Type}

/-! ## The reader's steps -/

section Reading

variable {base : Nat} {s : Sys Msg} {p : Pid}

theorem Pc.holdsRead_facts {pc : Pc Msg} (h : pc.holdsRead) :
    pc ≠ .unregistered ∧ pc.holdsWrite = false ∧ pc.reads := by
  cases pc <;> simp [Pc.holdsRead, Pc.holdsWrite, Pc.reads] at h ⊢

variable {datasize : Nat} {pc' : Pc Msg} {max : Int}

variable (h : Inv base s)
include h

theorem Inv.not_sendOnly (hReg : s.pc p ≠ .unregistered)
    (hReads : (s.pc p).reads) : (s.stateP p).sendOnly = false := by
  by_contra hTrue
  have hNot := h.sends p hReg (by simpa using hTrue)
  rw [hReads] at hNot
  cases hNot

theorem Inv.receiver (hRead : (s.pc p).holdsRead) : Receiver base s p := by
  obtain ⟨hReg, -, hReads⟩ := Pc.holdsRead_facts hRead
  exact h.receives p hReg (h.not_sendOnly hReg hReads)

theorem Inv.lockRead (hpc : s.pc p = .getLock datasize) :
    Inv base { s.setPc p (.getFetch datasize) with readers := p :: s.readers } := by
  have hStored : Stored base (s.setPc p (.getFetch datasize)) :=
    h.stored.setPc (by rw [hpc]; rfl) rfl
  have hSend := h.not_sendOnly (p := p) (by simp [hpc]) (by rw [hpc]; rfl)
  refine h.move (by simp [hpc]) (by simp) (fun _ _ => rfl) { hStored with }
    (h.locks.move ?_ (by simp [Pc.holdsRead]) fun q hq => ⟨.rfl, by simp [hq]⟩) (by rw [hpc]; rfl)
    (Pc.tracks_of_none rfl)
    (fun hTrue => by rw [hSend] at hTrue; cases hTrue)
  exact (h.locks.writer p).trans (by rw [hpc]; rfl)

/-- A reader goes on with its local copy of `maxMsgNum`. -/
theorem Inv.readerMove {ft : Pid → Nat} (hRead : (s.pc p).holdsRead) (hRead' : pc'.holdsRead)
    (hft : ∀ q, q ≠ p → ft q = s.fetched q) (hPending : pc'.pending = (s.pc p).pending)
    (hTracks : pc'.Tracks base s.seg (s.stateP p) (ft p)) :
    Inv base { s.setPc p pc' with fetched := ft } := by
  obtain ⟨hReg, hWrite, hReads⟩ := Pc.holdsRead_facts hRead
  obtain ⟨hReg', hWrite', -⟩ := Pc.holdsRead_facts hRead'
  refine h.move hReg hReg' hft { h.stored.setPc hWrite hWrite' with }
    { h.locks.setPc (hWrite'.trans hWrite.symm) (hRead'.trans hRead.symm) with } hPending hTracks
    fun hSend => ?_
  rw [h.not_sendOnly hReg hReads] at hSend
  cases hSend

omit h in
theorem Table.entry_ne (h : Table s) {q : Pid} (hp : s.pc p ≠ .unregistered)
    (hq : s.pc q ≠ .unregistered) (hNe : q ≠ p) : s.myBackendId q ≠ s.myBackendId p := by
  intro hEq
  have hMine := h.mine q hq
  rw [Sys.stateP, hEq] at hMine
  exact hNe (some.inj (hMine.symm.trans (h.mine p hp)))

omit h in
theorem Table.ne_free (h : Table s) {i : Nat} (hReg : s.pc p ≠ .unregistered)
    (hNone : (s.seg.procState i).procPid = none) : s.myBackendId p ≠ i := by
  intro hEq
  have hMine := h.mine p hReg
  rw [Sys.stateP, hEq, hNone] at hMine
  cases hMine

/-- A reader changes its own entry, and possibly returns. -/
theorem Inv.ownEntry {st : ProcState} {rd : List Pid} {rs : Pid → List (Option (List Msg))}
    {sc : Pid → Nat} (hRead : (s.pc p).holdsRead) (hReg' : pc' ≠ .unregistered)
    (hWrite' : pc'.holdsWrite = false) (hPid : st.procPid = (s.stateP p).procPid)
    (hSend : st.sendOnly = (s.stateP p).sendOnly)
    (hLocks : Locks { s.setPc p pc' with readers := rd })
    (hOthers : ∀ q, q ≠ p → rs q = s.results q ∧ sc q = s.since q)
    (hReceiver : Receiver base { s.setPc p pc' with
      seg := s.seg.setProc (s.myBackendId p) st
      readers := rd, results := rs, since := sc } p) :
    Inv base { s.setPc p pc' with
      seg := s.seg.setProc (s.myBackendId p) st
      readers := rd, results := rs, since := sc } := by
  obtain ⟨hReg, hWrite, hReads⟩ := Pc.holdsRead_facts hRead
  have hTable : Table { s.setPc p pc' with seg := s.seg.setProc (s.myBackendId p) st } :=
    (h.table.setPc hReg hReg').setSeg rfl ((forall_update_iff s.seg.procState
      fun i st => st.procPid = (s.seg.procState i).procPid).mpr ⟨hPid, fun _ _ => rfl⟩)
  refine h.moved { h.counters with } { h.stored.setPc hWrite hWrite' with }
    { hLocks with } { hTable with } (fun q hq hRegq => ?_) rfl le_rfl (prefix_refl _)
    (fun _ _ => hReceiver) fun hSendp => ?_
  · have hPc : (s.setPc p pc').pc q = s.pc q := setPc_of_ne hq
    exact ⟨update_of_ne (h.table.entry_ne hReg (hPc ▸ hRegq) hq) _ _, hPc,
      (hOthers q hq).1, (hOthers q hq).2, rfl⟩
  · have hSendp : (update s.seg.procState (s.myBackendId p) st
      (s.myBackendId p)).sendOnly := hSendp
    rw [update_self, hSend, h.not_sendOnly hReg hReads] at hSendp
    cases hSendp

theorem Inv.locks_return (hRead : (s.pc p).holdsRead) :
    Locks { s.setPc p .ready with readers := s.readers.filter (· ≠ p) } :=
  h.locks.move ((h.locks.writer p).trans (by rw [(Pc.holdsRead_facts hRead).2.1]; rfl))
    (by simp [Pc.holdsRead]) fun q hq => ⟨.rfl, by simp [hq]⟩

omit h in
theorem setProc_self (seg : SISeg Msg) (i : Nat) (st : ProcState) :
    (seg.setProc i st).procState i = st := by
  simp [SISeg.setProc]

/-- The reset result: the backend will read from the messages published after it
looked. -/
theorem Inv.resetResult (hpc : s.pc p = .getTest datasize max) :
    Inv base { s.getReturn p
        { s.stateP p with nextMsgNum := max, resetState := false, signaled := false }
        none with
      since := update s.since p (s.fetched p) } := by
  have hRead : (s.pc p).holdsRead := by rw [hpc]; rfl
  obtain ⟨hTop, hLow, hHigh, -⟩ := (h.receiver hRead).fetched max (by rw [hpc]; rfl)
  have hLog := h.counters.top
  refine h.ownEntry hRead (by simp) rfl rfl rfl { h.locks_return hRead with }
    (fun q hq => ⟨update_of_ne hq _ _, update_of_ne hq _ _⟩) ?_
  refine receiver_of [] (setProc_self _ _ _)
    (by simp [Sys.taken, Sys.getReturn, received, Pc.pending])
    (update_self _ _ _) setPc_self nil_prefix ?_ (fun _ => ⟨hTop, hLow, hHigh⟩)
    (Pc.tracks_of_none rfl)
  show s.fetched p ≤ s.log.length
  omega

section

variable {data : List Msg} (hpc : s.pc p = .getLoop datasize max data)
include hpc

/-- One message is read: it is the next one of the log. -/
theorem Inv.readOne (hSize : data.length < datasize) (hMax : (s.stateP p).nextMsgNum < max) :
    Inv base { s.setPc p (.getLoop datasize max (data ++
        [s.seg.buffer ((s.stateP p).nextMsgNum.toNat % maxNumMessages)])) with
      seg := s.seg.setProc (s.myBackendId p)
        { s.stateP p with nextMsgNum := (s.stateP p).nextMsgNum + 1 } } := by
  have hRead : (s.pc p).holdsRead := by rw [hpc]; rfl
  have hRec := h.receiver hRead
  obtain ⟨hReset, -⟩ := hRec.looping datasize max data hpc
  obtain ⟨hNext, hLow, -⟩ := hRec.live hReset
  obtain ⟨hTop, hMin, hHigh, -⟩ := hRec.fetched max (by rw [hpc]; rfl)
  have hLog := h.counters.top
  have hNonneg := h.counters.low
  -- The slot read holds entry `since + length` of the log.
  have hLt : s.since p + (s.taken p).length < s.log.length := by omega
  have hEntry : s.seg.buffer ((s.stateP p).nextMsgNum.toNat % maxNumMessages) =
      s.log[s.since p + (s.taken p).length] := by
    have hHolds := h.stored.holds.left (s.since p + (s.taken p).length) (by omega) hLt
    rw [← hHolds, slot_eq h.counters.aligned (by omega) hNext]
  have hTaken : ∀ m : Msg, received (s.results p) ++ (data ++ [m]) = s.taken p ++ [m] := by
    intro m
    unfold Sys.taken
    rw [hpc, ← append_assoc]
    rfl
  refine h.ownEntry hRead (by simp) rfl rfl rfl (h.locks.setPc (by rw [hpc]; rfl)
    (by rw [hpc]; rfl)) (fun q hq => ⟨rfl, rfl⟩) ?_
  · refine receiver_of (s.taken p ++ [s.log[s.since p + (s.taken p).length]])
      (setProc_self _ _ _) ?_ rfl setPc_self ?_ hRec.since (fun _ => ⟨?_, ?_, ?_⟩) ⟨?_, ?_⟩
    · show received (s.results p) ++ (update s.pc p _ p).pending = _
      rw [update_self, ← hEntry]
      exact hTaken _
    · obtain ⟨rest, hRest⟩ := hRec.consecutive
      have hCons : s.log.drop (s.since p + (s.taken p).length) = rest := by
        rw [← drop_drop, ← hRest, drop_left]
      refine ⟨s.log.drop (s.since p + (s.taken p).length + 1), ?_⟩
      show _ = s.log.drop (s.since p)
      rw [← hRest, ← hCons]
      simp
    · simp only [length_append]
      show base + ((s.stateP p).nextMsgNum + 1) = s.since p + ((_ + 1 : Nat) : Int)
      omega
    · show s.seg.minMsgNum ≤ (s.stateP p).nextMsgNum + 1
      omega
    · show (s.stateP p).nextMsgNum + 1 ≤ s.seg.maxMsgNum
      omega
    · intro max' hSome
      injection hSome with hEq
      subst hEq
      exact ⟨hTop, hMin, hHigh, fun _ => by show (s.stateP p).nextMsgNum + 1 ≤ max; omega⟩
    · intro datasize' max' data' hEq
      injection hEq with hData hMax' hData'
      refine ⟨hReset, ?_⟩
      rw [← hData', length_append, length_singleton]
      omega

theorem Inv.returnData (signaled : Bool) :
    Inv base (s.getReturn p { s.stateP p with signaled := signaled } (some data)) := by
  have hRead : (s.pc p).holdsRead := by rw [hpc]; rfl
  have hRec := h.receiver hRead
  have hTaken : received (some data :: s.results p) = s.taken p := by
    unfold Sys.taken
    rw [hpc]
    rfl
  refine h.ownEntry hRead (by simp) rfl rfl rfl { h.locks_return hRead with }
    (fun q hq => ⟨update_of_ne hq _ _, rfl⟩) ?_
  refine receiver_of (s.taken p) (setProc_self _ _ _) ?_ rfl setPc_self
    hRec.consecutive hRec.since hRec.live (Pc.tracks_of_none rfl)
  unfold Sys.taken
  rw [setPc_self]
  show received (update s.results p _ p) ++ [] = _
  rw [update_self, append_nil, hTaken]
  rfl

end

theorem Inv.fetch (hpc : s.pc p = .getFetch datasize) :
    Inv base { s.setPc p (.getTest datasize s.seg.maxMsgNum) with
      fetched := update s.fetched p s.log.length } := by
  have hRead : (s.pc p).holdsRead := by rw [hpc]; rfl
  have hOrdered := h.counters.ordered
  refine h.readerMove hRead rfl (fun q hq => update_of_ne hq _ _)
    (by rw [hpc]; rfl) ⟨?_, fun datasize' max data hEq => by cases hEq⟩
  intro max hSome
  injection hSome with hMax
  subst hMax
  rw [update_self]
  exact ⟨h.counters.top, hOrdered, le_rfl, fun hReset => ((h.receiver hRead).live hReset).2.2⟩

theorem Inv.startReading (hpc : s.pc p = .getTest datasize max)
    (hReset : (s.stateP p).resetState = false) :
    Inv base (s.setPc p (.getLoop datasize max [])) := by
  have hRead : (s.pc p).holdsRead := by rw [hpc]; rfl
  obtain ⟨hTop, hLow, hHigh, hNext⟩ := (h.receiver hRead).fetched max (by rw [hpc]; rfl)
  refine h.readerMove hRead rfl (fun q _ => rfl) (by rw [hpc]; rfl) ⟨?_, ?_⟩
  · intro max' hSome
    injection hSome with hMax
    subst hMax
    exact ⟨hTop, hLow, hHigh, hNext⟩
  · intro datasize' max' data hEq
    injection hEq with _ _ hData
    rw [← hData]
    exact ⟨hReset, Nat.zero_le _⟩

end Reading

/-! ## Processes that come and go -/

section Membership

variable {base : Nat} {s : Sys Msg} {p : Pid}

/-- An entry is taken or given up. What the other processes know is unaffected, as
long as the entry is none of theirs. -/
theorem Inv.membership (h : Inv base s) {pc' : Pc Msg} {i lastBackend : Nat} {st : ProcState}
    {mb lx sc : Pid → Nat} {rs : Pid → List (Option (List Msg))}
    (hpc : s.pc p = .unregistered ∨ s.pc p = .ready)
    (hpc' : pc' = .unregistered ∧ st.procPid = none ∨ pc' = .ready ∧ st.procPid = some p ∧ mb p = i)
    (hOthers : ∀ q, q ≠ p → s.pc q ≠ .unregistered → s.myBackendId q ≠ i)
    (hLeft : ∀ j, (s.seg.procState j).procPid = some p → j = i)
    (hSame : ∀ q, q ≠ p → mb q = s.myBackendId q ∧ rs q = s.results q ∧ sc q = s.since q)
    (hActive : ∀ j, lastBackend ≤ j → (update s.seg.procState i st j).procPid = none)
    (hReceiver : pc' = .ready → Receiver base { s.setPc p pc' with
      seg := { s.seg.setProc i st with lastBackend := lastBackend }
      myBackendId := mb, nextLocalTransactionId := lx, results := rs, since := sc } p) :
    Inv base { s.setPc p pc' with
      seg := { s.seg.setProc i st with lastBackend := lastBackend }
      myBackendId := mb, nextLocalTransactionId := lx, results := rs, since := sc } := by
  have hOut : ∀ pc : Pc Msg, pc = .unregistered ∨ pc = .ready →
      pc.holdsWrite = false ∧ pc.holdsRead = false ∧ pc.reads = false := by
    rintro pc (rfl | rfl)
    · exact ⟨rfl, rfl, rfl⟩
    · exact ⟨rfl, rfl, rfl⟩
  obtain ⟨hWrite, hRead, -⟩ := hOut _ hpc
  obtain ⟨hWrite', hRead', hReads'⟩ := hOut pc' (hpc'.imp And.left And.left)
  refine h.moved (p := p) { h.counters with } { h.stored.setPc hWrite hWrite' with }
    { h.locks.setPc (hWrite'.trans hWrite.symm) (hRead'.trans hRead.symm) with }
    ⟨hActive, ?_, ?_⟩ (fun q hq hRegq => ?_) rfl le_rfl (prefix_refl _)
    (fun hRegp _ => ?_) fun _ => ?_
  · refine (forall_update_iff s.seg.procState fun j st => ∀ q, st.procPid = some q →
      (s.setPc p pc').pc q ≠ .unregistered ∧ mb q = j).mpr ⟨fun q hq => ?_, fun j hj q hq => ?_⟩
    · obtain ⟨-, hNone⟩ | ⟨rfl, hSome, hBackend⟩ := hpc'
      · cases hNone.symm.trans hq
      · obtain rfl := some.inj (hSome.symm.trans hq)
        exact ⟨by simp, hBackend⟩
    · obtain ⟨hReg, hBackend⟩ := h.table.owner j q hq
      have hqp : q ≠ p := fun hEq => hj (hLeft j (hEq ▸ hq))
      rw [setPc_of_ne hqp, (hSame q hqp).1]
      exact ⟨hReg, hBackend⟩
  · refine forall_setPc (R := fun q pc => pc ≠ .unregistered →
      (update s.seg.procState i st (mb q)).procPid = some q) (fun hNe => ?_)
      fun q hq hReg => ?_
    · obtain ⟨rfl, -⟩ | ⟨-, hSome, hBackend⟩ := hpc'
      · exact absurd rfl hNe
      · rw [hBackend, update_self]
        exact hSome
    · rw [(hSame q hq).1, update_of_ne (hOthers q hq hReg)]
      exact h.table.mine q hReg
  · have hPc : (s.setPc p pc').pc q = s.pc q := setPc_of_ne hq
    refine ⟨?_, hPc, (hSame q hq).2.1, (hSame q hq).2.2, rfl⟩
    show update s.seg.procState i st (mb q) = s.stateP q
    rw [(hSame q hq).1, update_of_ne (hOthers q hq (hPc ▸ hRegq))]
    rfl
  · have hNe : (s.setPc p pc').pc p ≠ .unregistered := hRegp
    rw [setPc_self] at hNe
    exact hReceiver ((hpc'.imp And.left And.left).resolve_left hNe)
  · rw [setPc_self]
    exact hReads'

theorem freeEntry_spec {seg : SISeg Msg} {i : Nat} (h : seg.freeEntry = some i)
    (hActive : ∀ j, seg.lastBackend ≤ j → (seg.procState j).procPid = none) :
    (seg.procState i).procPid = none ∧ i ≤ seg.lastBackend := by
  unfold SISeg.freeEntry at h
  split at h
  case h_1 j hFind =>
    injection h with hEq
    subst hEq
    have hMem := mem_of_find?_eq_some hFind
    have hNone := find?_some hFind
    simp only [mem_range] at hMem
    simp only [isNone_iff_eq_none] at hNone
    exact ⟨hNone, by omega⟩
  case h_2 hFind =>
    split at h
    · injection h with hEq
      subst hEq
      exact ⟨hActive _ le_rfl, le_rfl⟩
    · cases h

/-- Entries from `lastActive` on are not in use. -/
theorem lastActive_spec (procState : Nat → ProcState) (n : Nat)
    (h : ∀ j, n ≤ j → (procState j).procPid = none) :
    ∀ j, SISeg.lastActive procState n ≤ j → (procState j).procPid = none := by
  induction n with
  | zero => exact h
  | succ n ih =>
    unfold SISeg.lastActive
    split_ifs with hSome
    · exact h
    · refine ih fun j hj => ?_
      by_cases hEq : j = n
      · rw [hEq]
        simpa using hSome
      · exact h j (by omega)

/-- `SharedInvalBackendInit`: the new backend is to read what is published from now
on. -/
theorem Inv.register (h : Inv base s) (hpc : s.pc p = .unregistered) (sendOnly : Bool) :
    Inv base (s.register p sendOnly) := by
  unfold Sys.register
  cases hEntry : s.seg.freeEntry with
  | none => exact h
  | some i =>
    obtain ⟨hNone, hLast⟩ := freeEntry_spec hEntry h.table.active
    have hLog := h.counters.top
    refine h.membership (.inl hpc) (.inr ⟨rfl, rfl, update_self _ _ _⟩)
      (fun q _ hReg => h.table.ne_free hReg hNone) (fun j hj => absurd hpc (h.table.owner j p hj).1)
      (fun q hq => ⟨update_of_ne hq _ _, update_of_ne hq _ _,
        update_of_ne hq _ _⟩) (fun j hj => ?_) fun _ => ?_
    · have hNe : j ≠ i ∧ s.seg.lastBackend ≤ j := by
        split at hj <;> omega
      rw [update_of_ne hNe.1]
      exact h.table.active j hNe.2
    · have hState : ∀ st, update s.seg.procState i st
          (update s.myBackendId p i p) = st := by
        intro st
        rw [update_self, update_self]
      refine receiver_of [] (hState _) ?_ (update_self _ _ _) setPc_self
        nil_prefix le_rfl (fun _ => ⟨?_, h.counters.ordered, le_rfl⟩)
        (Pc.tracks_of_none rfl)
      · show received (update s.results p [] p) ++ ((s.setPc p .ready).pc p).pending = _
        rw [update_self, setPc_self]
        rfl
      · simpa using hLog

theorem Inv.deregister (h : Inv base s) (hpc : s.pc p = .ready) : Inv base (s.deregister p) := by
  have hReg : s.pc p ≠ .unregistered := by rw [hpc]; simp
  refine h.membership (.inr hpc) (.inl ⟨rfl, rfl⟩)
    (fun q hq hRegq => h.table.entry_ne hReg hRegq hq)
    (fun j hj => (h.table.owner j p hj).2.symm) (fun q _ => ⟨rfl, rfl, rfl⟩) ?_
    (fun hReady => by cases hReady)
  exact lastActive_spec _ _ ((forall_update_iff s.seg.procState
    fun j st => s.seg.lastBackend ≤ j → st.procPid = none).mpr
      ⟨fun _ => rfl, fun j _ => h.table.active j⟩)

end Membership

/-! ## Every interleaving -/

section Steps

variable {base : Nat} {s : Sys Msg} {p : Pid}

/-- Waiting for the write lock to insert or to clean up. -/
theorem Inv.lockWrite_step (h : Inv base s) {pc' : Pc Msg} (hReg : s.pc p ≠ .unregistered)
    (hOld : (s.pc p).reads = false) (hNew : pc'.Cleaning) : Inv base (s.lockWrite p pc') := by
  unfold Sys.lockWrite
  cases hLock : s.writeLock with
  | none => exact h.lockWrite hLock hReg hOld hNew
  | some q => exact h

variable {data : List Msg} {max : Int}

variable (h : Inv base s) {t : Sys Msg}
include h

/-- One pass of the loop that makes room. -/
theorem Inv.insertCheck {batch : List Msg} (hpc : s.pc p = .insertCheck batch data) :
    ∃ base', Inv base' (s.insertCheck p batch data) := by
  have hCleaning : (s.pc p).Cleaning := .inl ⟨batch, data, hpc⟩
  unfold Sys.insertCheck
  dsimp only
  split
  case isTrue hFull =>
    by_cases hReaders : s.readers.isEmpty
    · rw [if_pos hReaders]
      obtain ⟨base', hClean⟩ := h.clean hCleaning (isEmpty_iff.mp hReaders) batch.length
      refine ⟨base', ?_⟩
      split_ifs with hSignal
      · exact hClean.unlockWrite hCleaning (by simp) rfl rfl
      · exact hClean
    · rw [if_neg hReaders]
      exact ⟨base, h⟩
  case isFalse hRoom =>
    push Not at hRoom
    exact ⟨base, h.startWriting hpc hRoom.1⟩

/-- One message copied to the buffer, or the end of the batch. -/
theorem Inv.insertWrite {written batch : List Msg}
    (hpc : s.pc p = .insertWrite max written batch data) :
    Inv base (s.insertWrite p max written batch data) := by
  cases batch with
  | nil => exact h.publish hpc
  | cons m batch => exact h.writeOne hpc

theorem Inv.cleanup {minFree : Int} (hpc : s.pc p = .cleanup minFree) :
    ∃ base', Inv base' (s.cleanup p minFree) := by
  have hCleaning : (s.pc p).Cleaning := .inr ⟨minFree, hpc⟩
  unfold Sys.cleanup
  split_ifs with hReaders
  · obtain ⟨base', hClean⟩ := h.clean hCleaning (isEmpty_iff.mp hReaders) minFree
    exact ⟨base', hClean.unlockWrite hCleaning (by simp) rfl rfl⟩
  · exact ⟨base, h⟩

theorem Inv.getTest {datasize : Nat}
    (hpc : s.pc p = .getTest datasize max) : Inv base (s.getTest p datasize max) := by
  unfold Sys.getTest
  split_ifs with hReset
  · exact h.resetResult hpc
  · exact h.startReading hpc (by simpa using hReset)

/-- One pass of the loop that copies messages, or its end. -/
theorem Inv.getLoop {datasize : Nat} (hpc : s.pc p = .getLoop datasize max data) :
    Inv base (s.getLoop p datasize max data) := by
  unfold Sys.getLoop
  by_cases hMore : data.length < datasize ∧ (s.stateP p).nextMsgNum < max
  · rw [if_pos hMore]
    exact h.readOne hpc hMore.1 hMore.2
  · rw [if_neg hMore]
    exact h.returnData hpc _

theorem Inv.go (p : Pid) : ∃ base', Inv base' (s.go p) := by
  unfold Sys.go
  cases hpc : s.pc p with
  | unregistered => exact ⟨base, h⟩
  | ready => exact ⟨base, h⟩
  | insertLock batch data =>
    exact ⟨base, h.lockWrite_step (by rw [hpc]; simp) (by rw [hpc]; rfl) (.inl ⟨batch, data, rfl⟩)⟩
  | insertCheck batch data => exact h.insertCheck hpc
  | insertWrite max written batch data => exact ⟨base, h.insertWrite hpc⟩
  | cleanupLock minFree =>
    exact ⟨base, h.lockWrite_step (by rw [hpc]; simp) (by rw [hpc]; rfl) (.inr ⟨minFree, rfl⟩)⟩
  | cleanup minFree => exact h.cleanup hpc
  | getLock datasize => exact ⟨base, h.lockRead hpc⟩
  | getFetch datasize => exact ⟨base, h.fetch hpc⟩
  | getTest datasize max => exact ⟨base, h.getTest hpc⟩
  | getLoop datasize max data => exact ⟨base, h.getLoop hpc⟩

theorem Inv.step (a : Pid × Act Msg) : ∃ base', Inv base' (s.step a) := by
  obtain ⟨p, act⟩ := a
  unfold Sys.step
  dsimp only
  split
  case h_1 sendOnly hpc =>
    split
    · exact ⟨base, h.register hpc sendOnly⟩
    · exact ⟨base, h⟩
  case h_2 hpc =>
    split
    · exact ⟨base, h.deregister hpc⟩
    · exact ⟨base, h⟩
  case h_3 data hpc =>
    have hOut := nextBatch_outside data
    have hRead : (Sys.nextBatch data).holdsRead = false := by
      unfold Sys.nextBatch
      split <;> rfl
    exact ⟨base, h.call hpc hOut.1 hOut.2.1 hRead (fun _ => hOut.2.2)⟩
  case h_4 minFree hpc =>
    exact ⟨base, h.call hpc (by simp) rfl rfl (fun _ => rfl)⟩
  case h_5 datasize hpc =>
    split
    · exact ⟨base, h⟩
    case isFalse hSend =>
      exact ⟨base, h.call hpc (by simp) rfl rfl (fun hTrue => absurd hTrue hSend)⟩
  case h_6 => exact h.go p
  case h_7 => exact ⟨base, h⟩

variable (hReg : s.pc p ≠ .unregistered) (hSend : (s.stateP p).sendOnly = false)
  (hReset : (s.stateP p).resetState)
include hReset

include hReg hSend

end Steps

end PgTuning.Sinval
