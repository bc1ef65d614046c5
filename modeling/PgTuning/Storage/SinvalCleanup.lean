import Mathlib.Algebra.Order.Ring.Int
import Mathlib.Data.List.Infix
import PgTuning.Storage.Sinvaladt

/-!
# What `SICleanupQueue` does to the counters

When `minMsgNum` has become large, all counters are decremented by `MSGNUMWRAPAROUND`, a multiple of
the buffer size. `base` is the amount by which they have been decremented so far: message number `i`
of the code is entry `base + i` of the log of all messages, and the two have the same slot.
-/

namespace PgTuning.Sinval

open Function

variable {Msg : Type}

variable {base : Nat} {seg : SISeg Msg} {log : List Msg} {c : SISeg.Scan}

theorem maxNumMessages_lt : maxNumMessages < msgNumWraparound := by decide

/-- The backend reads and is not in reset state, so its counter counts. -/
def ProcState.Live (stateP : ProcState) : Prop :=
  stateP.procPid ≠ none ∧ stateP.resetState = false ∧ stateP.sendOnly = false

/-- `log` has been published; the counters have been decremented by `base`. -/
structure Counters (base : Nat) (seg : SISeg Msg) (log : List Msg) : Prop where
  aligned : base % maxNumMessages = 0
  top : base + seg.maxMsgNum = log.length
  low : 0 ≤ seg.minMsgNum
  ordered : seg.minMsgNum ≤ seg.maxMsgNum
  small : seg.minMsgNum < msgNumWraparound

/-- What the loop over the first `k` backends has done. -/
structure ScanInv (seg : SISeg Msg) (k : Nat) (c : SISeg.Scan) : Prop where
  le : c.min ≤ seg.maxMsgNum
  ge : seg.minMsgNum ≤ c.min
  later : ∀ i, k ≤ i → c.procState i = seg.procState i
  entry : ∀ i, ∃ b, c.procState i = { seg.procState i with resetState := b } ∧
    ((seg.procState i).resetState = true → b = true)
  tracked : ∀ i, i < k → (c.procState i).Live → c.min ≤ (c.procState i).nextMsgNum

theorem scanInv_zero (h : seg.minMsgNum ≤ seg.maxMsgNum) (minsig : Int) :
    ScanInv seg 0 ⟨seg.maxMsgNum, minsig, none, seg.procState⟩ where
  le := le_rfl
  ge := h
  later := fun _ _ => rfl
  entry := fun i => ⟨(seg.procState i).resetState, rfl, id⟩
  tracked := fun i hi => absurd hi (Nat.not_lt_zero i)

/-- A backend that is still live after the loop has the counter it had. -/
theorem ScanInv.nextMsgNum {k : Nat} (h : ScanInv seg k c) (i : Nat) :
    (c.procState i).nextMsgNum = (seg.procState i).nextMsgNum := by
  obtain ⟨b, hEq, -⟩ := h.entry i
  rw [hEq]

/-- One pass of the loop leaves the other entries alone, and the entry that it looks at in
reset state or counted in the minimum. -/
theorem scanBackend_spec (lowbound : Int) (c : SISeg.Scan) (k : Nat) :
    ∃ b, (SISeg.scanBackend lowbound c k).procState =
        update c.procState k { c.procState k with resetState := b } ∧
      ((c.procState k).resetState → b) ∧
      (SISeg.scanBackend lowbound c k).min ≤ c.min ∧
      (∀ m ≤ c.min, ((c.procState k).Live → m ≤ (c.procState k).nextMsgNum) →
        m ≤ (SISeg.scanBackend lowbound c k).min) ∧
      (ProcState.Live { c.procState k with resetState := b } →
        (SISeg.scanBackend lowbound c k).min ≤ (c.procState k).nextMsgNum) := by
  have hSame : c.procState = update c.procState k
      { c.procState k with resetState := (c.procState k).resetState } :=
    (update_eq_self k c.procState).symm
  unfold SISeg.scanBackend
  dsimp only
  split
  · rename_i hSkip
    refine ⟨(c.procState k).resetState, hSame, id, le_rfl, fun m hm _ => hm, fun hl => ?_⟩
    exact absurd hSkip (not_or.mpr
      ⟨hl.1, not_or.mpr ⟨ne_true_of_eq_false hl.2.1, ne_true_of_eq_false hl.2.2⟩⟩)
  rename_i hSkip
  split
  · exact ⟨true, rfl, fun _ => rfl, le_rfl, fun m hm _ => hm, fun hl => by cases hl.2.1⟩
  · have hLive : (c.procState k).Live := by simpa [ProcState.Live] using hSkip
    refine ⟨(c.procState k).resetState, hSame, id, ?_, fun m hm hLow => ?_, fun _ => ?_⟩
    · dsimp only
      split <;> omega
    · have hLow := hLow hLive
      split <;> omega
    · dsimp only
      split <;> omega

theorem scanInv_step {lowbound : Int} {k : Nat}
    (hLive : ∀ i, (seg.procState i).Live → seg.minMsgNum ≤ (seg.procState i).nextMsgNum)
    (h : ScanInv seg k c) : ScanInv seg (k + 1) (SISeg.scanBackend lowbound c k) := by
  have hSame : c.procState k = seg.procState k := h.later k (le_refl k)
  obtain ⟨b, hProcs, hReset, hLe, hGe, hTracked⟩ := scanBackend_spec lowbound c k
  refine ⟨hLe.trans h.le, hGe _ h.ge (hSame ▸ hLive k), ?_, ?_, ?_⟩
  · intro i hi
    rw [hProcs, update_of_ne (by omega)]
    exact h.later i (by omega)
  · rw [hProcs]
    refine (forall_update_iff c.procState (p := fun i stateP => ∃ b, stateP =
      { seg.procState i with resetState := b } ∧ (_ → b))).mpr ⟨?_, fun i _ => h.entry i⟩
    exact ⟨b, by rw [hSame], hSame ▸ hReset⟩
  · rw [hProcs]
    refine (forall_update_iff c.procState (p := fun i (stateP : ProcState) => i < k + 1 →
      stateP.Live → _ ≤ stateP.nextMsgNum)).mpr ⟨fun _ => hTracked, fun i hNe hi hl => ?_⟩
    exact hLe.trans (h.tracked i (by omega) hl)

theorem scan_spec (minFree : Int) (hOrdered : seg.minMsgNum ≤ seg.maxMsgNum)
    (hLive : ∀ i, (seg.procState i).Live → seg.minMsgNum ≤ (seg.procState i).nextMsgNum) :
    ScanInv seg seg.lastBackend (seg.scan minFree) := by
  unfold SISeg.scan
  generalize seg.lastBackend = m
  induction m with
  | zero => exact scanInv_zero hOrdered _
  | succ m ih =>
    rw [List.range_succ, List.foldl_append]
    exact scanInv_step hLive ih

/-- What `SICleanupQueue` leaves: the counters of the live backends still name the
same messages, and `minMsgNum` is below them. -/
structure CleanedUp (base base' : Nat) (seg seg' : SISeg Msg) : Prop where
  buffer : seg'.buffer = seg.buffer
  lastBackend : seg'.lastBackend = seg.lastBackend
  raised : base + seg.minMsgNum ≤ base' + seg'.minMsgNum
  procPid : ∀ i, (seg'.procState i).procPid = (seg.procState i).procPid
  sendOnly : ∀ i, (seg'.procState i).sendOnly = (seg.procState i).sendOnly
  live : ∀ i, (seg'.procState i).Live → (seg.procState i).Live ∧
    base' + (seg'.procState i).nextMsgNum = base + (seg.procState i).nextMsgNum ∧
    seg'.minMsgNum ≤ (seg'.procState i).nextMsgNum

theorem CleanedUp.finish {base' : Nat} {seg' : SISeg Msg} (h : CleanedUp base base' seg seg')
    (needSig : Option Nat) : CleanedUp base base' seg (seg'.setThreshold.markSignaled needSig) := by
  cases needSig with
  | none => exact { h with }
  | some k =>
    have hEntries {R : Nat → ProcState → Prop} (hAll : ∀ i, R i (seg'.procState i))
        (hSelf : R k { seg'.procState k with signaled := true }) :
        ∀ i, R i ((seg'.setThreshold.markSignaled (some k)).procState i) :=
      (forall_update_iff seg'.procState _).mpr ⟨hSelf, fun i _ => hAll i⟩
    exact ⟨h.buffer, h.lastBackend, h.raised,
      hEntries (R := fun i stateP => stateP.procPid = _) h.procPid (h.procPid k),
      hEntries (R := fun i stateP => stateP.sendOnly = _) h.sendOnly (h.sendOnly k),
      hEntries (R := fun i stateP => stateP.Live → (seg.procState i).Live ∧
        base' + stateP.nextMsgNum = _ ∧ seg'.minMsgNum ≤ stateP.nextMsgNum) h.live (h.live k)⟩

theorem Counters.finish (h : Counters base seg log) (needSig : Option Nat) :
    Counters base (seg.setThreshold.markSignaled needSig) log := by
  cases needSig with
  | none => exact { h with }
  | some k => exact { h with }

theorem CleanedUp.trans {base' base'' : Nat} {seg' seg'' : SISeg Msg}
    (h : CleanedUp base base' seg seg') (h' : CleanedUp base' base'' seg' seg'') :
    CleanedUp base base'' seg seg'' where
  buffer := h'.buffer.trans h.buffer
  lastBackend := h'.lastBackend.trans h.lastBackend
  raised := le_trans h.raised h'.raised
  procPid := fun i => (h'.procPid i).trans (h.procPid i)
  sendOnly := fun i => (h'.sendOnly i).trans (h.sendOnly i)
  live := fun i hl => by
    obtain ⟨hMid, hNext', hMin⟩ := h'.live i hl
    obtain ⟨hOld, hNext, -⟩ := h.live i hMid
    exact ⟨hOld, hNext'.trans hNext, hMin⟩

/-- All counters go down by the same multiple of the buffer size. -/
theorem forestallOverflow_spec (seg : SISeg Msg) (hAligned : base % maxNumMessages = 0)
    (hTop : base + seg.maxMsgNum = log.length) (hLow : 0 ≤ seg.minMsgNum)
    (hOrdered : seg.minMsgNum ≤ seg.maxMsgNum)
    (hMin : seg.minMsgNum < 2 * msgNumWraparound) (hLive : ∀ i, (seg.procState i).Live →
      seg.minMsgNum ≤ (seg.procState i).nextMsgNum ∧ i < seg.lastBackend) :
    ∃ base', Counters base' seg.forestallOverflow log ∧
      CleanedUp base base' seg seg.forestallOverflow := by
  unfold SISeg.forestallOverflow
  split_ifs with hLarge
  · -- the counters go down by a multiple of the buffer size
    refine ⟨base + msgNumWraparound, ⟨(Nat.add_mul_mod_self_left base _ _).trans hAligned,
      ?_, ?_, ?_, ?_⟩, rfl, rfl, ?_, ?_, ?_, ?_⟩
    · dsimp only
      omega
    · show 0 ≤ seg.minMsgNum - msgNumWraparound
      omega
    · show seg.minMsgNum - (msgNumWraparound : Int) ≤ seg.maxMsgNum - msgNumWraparound
      omega
    · show seg.minMsgNum - (msgNumWraparound : Int) < msgNumWraparound
      omega
    · dsimp only
      omega
    · intro i
      by_cases hi : i < seg.lastBackend <;> simp [hi]
    · intro i
      by_cases hi : i < seg.lastBackend <;> simp [hi]
    · intro i hl
      by_cases hi : i < seg.lastBackend
      · simp only [hi, if_true] at hl ⊢
        have hOld : (seg.procState i).Live := hl
        have hNext := (hLive i hOld).1
        exact ⟨hOld, by omega, by omega⟩
      · simp only [hi] at hl
        exact absurd (hLive i hl).2 hi
  · exact ⟨base, ⟨hAligned, hTop, hLow, hOrdered, by omega⟩, rfl, rfl, le_rfl,
      fun _ => rfl, fun _ => rfl, fun i hl => ⟨hl, rfl, (hLive i hl).1⟩⟩

/-- **`SICleanupQueue`** moves `minMsgNum` up and, when it has become large, moves
all counters down together. -/
theorem siCleanupQueue_spec (minFree : Int) (h : Counters base seg log)
    (hBacklog : seg.maxMsgNum ≤ seg.minMsgNum + maxNumMessages)
    (hLive : ∀ i, (seg.procState i).Live →
      seg.minMsgNum ≤ (seg.procState i).nextMsgNum ∧ i < seg.lastBackend) :
    ∃ base', Counters base' (seg.siCleanupQueue minFree).1 log ∧
      CleanedUp base base' seg (seg.siCleanupQueue minFree).1 := by
  have hScan := scan_spec minFree h.ordered fun i hi => (hLive i hi).1
  unfold SISeg.siCleanupQueue
  generalize seg.scan minFree = c at hScan
  obtain ⟨hAligned, hTop, hLow, hOrdered, hSmall⟩ := h
  have hle := hScan.le
  have hge := hScan.ge
  have hOld : ∀ i, (c.procState i).Live → (seg.procState i).Live := by
    intro i hl
    obtain ⟨b, hEq, hReset⟩ := hScan.entry i
    rw [hEq] at hl
    refine ⟨hl.1, ?_, hl.2.2⟩
    by_contra hr
    have hb : b := hReset (by simpa using hr)
    have hl' : b = false := hl.2.1
    rw [hb] at hl'
    cases hl'
  have hTracked : ∀ i, (c.procState i).Live →
      c.min ≤ (c.procState i).nextMsgNum ∧ i < seg.lastBackend := by
    intro i hl
    have hi := (hLive i (hOld i hl)).2
    exact ⟨hScan.tracked i hi hl, hi⟩
  -- First the loop alone, then the decrement.
  have hLoop : CleanedUp base base seg
      { seg with minMsgNum := c.min, procState := c.procState } := by
    refine ⟨rfl, rfl, by show base + seg.minMsgNum ≤ base + c.min; omega, ?_, ?_, ?_⟩
    · intro i
      obtain ⟨b, hEq, -⟩ := hScan.entry i
      simp only [hEq]
    · intro i
      obtain ⟨b, hEq, -⟩ := hScan.entry i
      simp only [hEq]
    · intro i hl
      have hNext := hScan.nextMsgNum i
      exact ⟨hOld i hl, by simp only [hNext], (hTracked i hl).1⟩
  have hMin : c.min < 2 * msgNumWraparound := by
    have hLt := maxNumMessages_lt
    omega
  have hNonneg : 0 ≤ c.min := by omega
  generalize hSeg : ({ seg with minMsgNum := c.min, procState := c.procState } :
    SISeg Msg) = cleaned at hLoop
  obtain ⟨base', hCounters, hCleaned⟩ := forestallOverflow_spec cleaned
    hAligned (by rw [← hSeg]; exact hTop) (by rw [← hSeg]; exact hNonneg)
    (by rw [← hSeg]; exact hle) (by rw [← hSeg]; exact hMin) (by rw [← hSeg]; exact hTracked)
  subst hSeg
  exact ⟨base', hCounters.finish _, (hLoop.trans hCleaned).finish _⟩

end PgTuning.Sinval
