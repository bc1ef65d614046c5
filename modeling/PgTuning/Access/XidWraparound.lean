import PgTuning.Access.Varsup
import PgTuning.Lib.Run

/-!
# No transaction id comes round again

The normal ids form a circle of 2^32 - 3. `rank oldest xid` is how many normal ids there are from
`oldest` up to `xid`. `offset` is the distance that the comparison modulo 2^31 sees: the rank, or
three more where the special ids lie between.

Only a backend that saw `nextXid` below the stop limit goes on to take an id, and it takes one. So
the rank of the next id, with the backends that wait for the lock added, never gets past the stop
limit and the number of backends: the next id stays within 2^31 of the oldest one if there are at
most 999996 backends. The million ids between the stop limit and the wrap limit are not quite enough
for a million backends, since the wrap limit is up to three ids too far where it falls on a special
id.
-/

namespace PgTuning.Access

open List Function Nat

/-! ## Ranks and offsets -/

variable (oldest xid : TransactionId)

/-- The distance from `oldest` that comparisons see. -/
def offset : Nat := (xid - oldest).toNat

/-- The number of normal ids from `oldest` up to `xid`. -/
def rank : Nat :=
  if oldest.toNat ≤ xid.toNat then xid.toNat - oldest.toNat
  else xid.toNat + 4294967293 - oldest.toNat

section Rank

variable {oldest xid other : TransactionId}

theorem normal_iff : transactionIdIsNormal xid ↔ 3 ≤ xid.toNat := by
  simp [transactionIdIsNormal, firstNormalTransactionId]

theorem offset_eq : offset oldest xid = if oldest.toNat ≤ xid.toNat then xid.toNat - oldest.toNat
      else xid.toNat + 4294967296 - oldest.toNat := by
  unfold offset
  split <;> bv_omega

section

variable (hXid : 3 ≤ xid.toNat)
include hXid

theorem offset_eq_rank (oldest : TransactionId) :
    offset oldest xid = rank oldest xid ∧ oldest.toNat ≤ xid.toNat ∨
      offset oldest xid = rank oldest xid + 3 ∧ xid.toNat < oldest.toNat := by
  rw [offset_eq, rank]
  split_ifs <;> omega

theorem rank_lt_rank_iff (hOld : 3 ≤ oldest.toNat) (hOther : 3 ≤ other.toNat) :
    rank oldest xid < rank oldest other ↔ offset oldest xid < offset oldest other := by
  rw [offset_eq, offset_eq, rank, rank]
  split <;> split <;> omega

theorem advance_toNat :
    (transactionIdAdvance xid).toNat = if xid.toNat = 4294967295 then 3 else xid.toNat + 1 := by
  have hNext : (xid + 1).toNat = if xid.toNat = 4294967295 then 0 else xid.toNat + 1 := by
    split_ifs <;> bv_omega
  have hThree : firstNormalTransactionId.toNat = 3 := rfl
  unfold transactionIdAdvance
  rw [apply_ite BitVec.toNat, hNext]
  split_ifs <;> omega

theorem advance_normal : 3 ≤ (transactionIdAdvance xid).toNat := by
  rw [advance_toNat hXid]
  split_ifs <;> omega

theorem rank_advance (oldest : TransactionId) (hRoom : rank oldest xid + 1 < 4294967293) :
    rank oldest (transactionIdAdvance xid) = rank oldest xid + 1 := by
  have hNext := advance_toNat hXid
  unfold rank at *
  rw [hNext]
  split_ifs at hRoom ⊢ <;> omega

theorem rank_shift {oldest' : TransactionId} (hOld : 3 ≤ oldest.toNat) (hOld' : 3 ≤ oldest'.toNat)
    (hLe : rank oldest oldest' ≤ rank oldest xid) :
    rank oldest xid = rank oldest oldest' + rank oldest' xid := by
  unfold rank at *
  split_ifs at hLe ⊢ <;> omega

/-! ## Comparisons -/

theorem precedes_iff_offset (oldest : TransactionId) (hOther : 3 ≤ other.toNat)
    (hAbove : offset oldest xid < offset oldest other + 2147483648)
    (hBelow : offset oldest other ≤ offset oldest xid + 2147483648) :
    transactionIdPrecedes xid other ↔ offset oldest xid < offset oldest other :=
  precedes_iff_sub oldest (normal_iff.mpr hXid) (normal_iff.mpr hOther) hAbove hBelow

end

theorem skipSpecialUp_toNat (limit : TransactionId) : (skipSpecialUp limit).toNat =
    if limit.toNat < 3 then limit.toNat + 3 else limit.toNat := by
  unfold skipSpecialUp firstNormalTransactionId
  split_ifs <;> bv_omega

theorem skipSpecialDown_toNat (limit : TransactionId) : (skipSpecialDown limit).toNat =
    if limit.toNat < 3 then limit.toNat + 4294967293 else limit.toNat := by
  unfold skipSpecialDown firstNormalTransactionId
  split_ifs <;> bv_omega

theorem wrapLimit_toNat (oldest : TransactionId) : (wrapLimit oldest).toNat =
    if (oldest.toNat + 2147483647) % 4294967296 < 3 then
      (oldest.toNat + 2147483647) % 4294967296 + 3
    else (oldest.toNat + 2147483647) % 4294967296 := by
  rw [wrapLimit, skipSpecialUp_toNat, BitVec.toNat_add]
  rfl

theorem stopLimit_toNat (oldest : TransactionId) : (stopLimit oldest).toNat =
    if ((wrapLimit oldest).toNat + 4293967296) % 4294967296 < 3 then
      ((wrapLimit oldest).toNat + 4293967296) % 4294967296 + 4294967293
    else ((wrapLimit oldest).toNat + 4293967296) % 4294967296 := by
  have hSub : (wrapLimit oldest - 1000000).toNat =
      ((wrapLimit oldest).toNat + 4293967296) % 4294967296 := by
    rw [BitVec.toNat_sub, add_comm]
    rfl
  rw [stopLimit, skipSpecialDown_toNat, hSub]

/-- A million ids before the wrap limit, which is up to three ids too far. -/
theorem stopLimit_spec (hOld : 3 ≤ oldest.toNat) :
    3 ≤ (stopLimit oldest).toNat ∧ rank oldest (stopLimit oldest) ≤ 2146483650 ∧
      2146483644 ≤ rank oldest (stopLimit oldest) := by
  have hWrap := wrapLimit_toNat oldest
  have hStop := stopLimit_toNat oldest
  unfold rank
  split_ifs at hWrap hStop ⊢ <;> omega

theorem vacLimit_spec (hOld : 3 ≤ oldest.toNat) {freezeMaxAge : Nat}
    (hMin : 100000000 ≤ freezeMaxAge) (hMax : freezeMaxAge ≤ 2000000000) :
    3 ≤ (vacLimit freezeMaxAge oldest).toNat ∧
      rank oldest (vacLimit freezeMaxAge oldest) ≤ 2000000003 ∧
      0 < rank oldest (vacLimit freezeMaxAge oldest) := by
  have hVac : (vacLimit freezeMaxAge oldest).toNat =
      if (oldest.toNat + freezeMaxAge) % 4294967296 < 3 then
        (oldest.toNat + freezeMaxAge) % 4294967296 + 3
      else (oldest.toNat + freezeMaxAge) % 4294967296 := by
    rw [vacLimit, skipSpecialUp_toNat, BitVec.toNat_add, BitVec.toNat_ofNat,
      mod_eq_of_lt (by omega : freezeMaxAge < 2 ^ 32)]
  unfold rank
  split_ifs at hVac ⊢ <;> omega

end Rank

/-! ## The invariant -/

/-- How many backends are between the two critical sections of a call. -/
def waiting (s : XidGen) : Nat := s.backends.countP XidBackend.isWaiting

/-- What holds between two critical sections. Each waiting backend takes one more id, and all of
these are within 2^31 of the oldest one. -/
structure XidInv (freezeMaxAge : Nat) (s : XidGen) : Prop where
  old_normal : 3 ≤ s.cache.oldestXid.toNat
  next_normal : 3 ≤ s.cache.nextXid.toNat
  stop : s.cache.xidStopLimit = stopLimit s.cache.oldestXid
  vac : s.cache.xidVacLimit = vacLimit freezeMaxAge s.cache.oldestXid
  few : s.backends.length ≤ 999996
  near : offset s.cache.oldestXid s.cache.nextXid ≤ 2147483648
  room : 0 < waiting s → rank s.cache.oldestXid s.cache.nextXid + waiting s ≤ 2147483645
  handed_normal : ∀ xid ∈ s.handedOut, 3 ≤ xid.toNat
  handed_lt : ∀ xid ∈ s.handedOut,
    offset s.cache.oldestXid xid < offset s.cache.oldestXid s.cache.nextXid
  handed_sorted : s.handedOut.Pairwise fun newer older =>
    offset s.cache.oldestXid older < offset s.cache.oldestXid newer

/-- A new oldest id is normal, not before the present one and not past the next id. -/
def XidEvent.Allowed (s : XidGen) : XidEvent → Prop
  | .setLimit oldest _ => transactionIdIsNormal oldest = true ∧
      offset s.cache.oldestXid oldest ≤ offset s.cache.oldestXid s.cache.nextXid
  | _ => True

theorem countP_set_isWaiting {backends : List XidBackend} {i : Nat} {b : XidBackend}
    (hGet : backends[i]? = some b) (b' : XidBackend) :
    (backends.set i b').countP XidBackend.isWaiting + (if b.isWaiting then 1 else 0) =
      backends.countP XidBackend.isWaiting + if b'.isWaiting then 1 else 0 := by
  obtain ⟨hi, rfl⟩ := List.getElem?_eq_some_iff.mp hGet
  have hOne : (if (backends[i]).isWaiting then 1 else 0) ≤
      backends.countP XidBackend.isWaiting := by
    split_ifs with hWaiting
    · exact countP_pos_iff.mpr ⟨_, getElem_mem hi, hWaiting⟩
    · exact zero_le _
  rw [countP_set hi]
  omega

variable {cache : VariableCache} {notice : Notice}

theorem checkLimits_below {isUnderPostmaster : Bool}
    (h : checkLimits isUnderPostmaster cache = .below) :
    transactionIdFollowsOrEquals cache.nextXid cache.xidVacLimit = false := by
  cases hVac : transactionIdFollowsOrEquals cache.nextXid cache.xidVacLimit with
  | false => rfl
  | true =>
    simp only [checkLimits] at h
    split_ifs at h

theorem checkLimits_past (h : checkLimits true cache = .past notice) :
    transactionIdFollowsOrEquals cache.nextXid cache.xidStopLimit = false := by
  cases hStop : transactionIdFollowsOrEquals cache.nextXid cache.xidStopLimit with
  | false => rfl
  | true =>
    simp only [checkLimits, hStop, Bool.and_self] at h
    split_ifs at h

section Step

variable {freezeMaxAge : Nat} {s : XidGen}

section

variable (h : XidInv freezeMaxAge s)
include h

/-- Where the next id is within the bound, together with those that still wait, it can be handed
out. -/
theorem XidInv.assignXid {i : Nat} {b : XidBackend} (hGet : s.backends[i]? = some b)
    (isSubXact : Bool) (hRoom : rank s.cache.oldestXid s.cache.nextXid + 1 + waiting s ≤
      2147483645 + if b.isWaiting then 1 else 0) :
    XidInv freezeMaxAge (assignXid s i isSubXact b.proc) := by
  have hWaiting := countP_set_isWaiting hGet ⟨.idle, storeXid isSubXact s.cache.nextXid b.proc⟩
  have hIdle : (XidBackend.mk .idle (storeXid isSubXact s.cache.nextXid b.proc)).isWaiting = false :=
    rfl
  rw [hIdle, if_neg Bool.false_ne_true] at hWaiting
  rw [waiting] at hRoom
  have hRank := rank_advance h.next_normal s.cache.oldestXid (by omega)
  have hNormal := advance_normal h.next_normal
  have hOffset := offset_eq_rank hNormal s.cache.oldestXid
  have hLater : offset s.cache.oldestXid s.cache.nextXid <
      offset s.cache.oldestXid (transactionIdAdvance s.cache.nextXid) := by
    rw [← rank_lt_rank_iff h.next_normal h.old_normal hNormal]
    omega
  exact { h with
    next_normal := hNormal
    few := by simpa [Access.assignXid] using h.few
    near := by
      simp only [Access.assignXid]
      omega
    room := by
      simp only [Access.assignXid, waiting]
      omega
    handed_normal := forall_mem_cons.mpr ⟨h.next_normal, h.handed_normal⟩
    handed_lt := by
      refine forall_mem_cons.mpr ⟨hLater, fun xid hOld => ?_⟩
      exact lt_trans (h.handed_lt xid hOld) hLater
    handed_sorted := pairwise_cons.mpr ⟨h.handed_lt, h.handed_sorted⟩ }

/-- An id that the test does not find at a limit is before it. -/
theorem XidInv.rank_lt {limit : TransactionId} (hLimit : 3 ≤ limit.toNat)
    (hPos : 0 < rank s.cache.oldestXid limit) (hFar : rank s.cache.oldestXid limit ≤ 2147483645)
    (hFalse : transactionIdFollowsOrEquals s.cache.nextXid limit = false) :
    rank s.cache.oldestXid s.cache.nextXid < rank s.cache.oldestXid limit := by
  have hNear := h.near
  have hOffset := offset_eq_rank hLimit s.cache.oldestXid
  rw [rank_lt_rank_iff h.next_normal h.old_normal hLimit,
    ← precedes_iff_offset h.next_normal _ hLimit (by omega) (by omega)]
  simpa [followsOrEquals_eq] using hFalse

/-- The next id is far from 2^31 when a backend does not wait. -/
theorem XidInv.rank_of_below (hMin : 100000000 ≤ freezeMaxAge)
    (hMax : freezeMaxAge ≤ 2000000000) (hBelow : checkLimits true s.cache = .below) :
    rank s.cache.oldestXid s.cache.nextXid < 2000000003 := by
  obtain ⟨hNormal, hUpper, hLower⟩ := vacLimit_spec h.old_normal hMin hMax
  have hFalse := checkLimits_below hBelow
  rw [h.vac] at hFalse
  have hLt := h.rank_lt hNormal hLower (by omega) hFalse
  omega

/-- When a backend begins to wait the next id is before the stop limit. -/
theorem XidInv.rank_of_past {notice : Notice} (hPast : checkLimits true s.cache = .past notice) :
    rank s.cache.oldestXid s.cache.nextXid < 2146483650 := by
  obtain ⟨hNormal, hUpper, hLower⟩ := stopLimit_spec h.old_normal
  have hFalse := checkLimits_past hPast
  rw [h.stop] at hFalse
  have hLt := h.rank_lt hNormal (by omega) (by omega) hFalse
  omega

/-- A later oldest id brings everything nearer. -/
theorem XidInv.setLimit {oldest : TransactionId} (datoid : Nat)
    (hNormal : transactionIdIsNormal oldest)
    (hNext : offset s.cache.oldestXid oldest ≤ offset s.cache.oldestXid s.cache.nextXid) :
    XidInv freezeMaxAge (xidStep freezeMaxAge s (.setLimit oldest datoid)) := by
  rw [normal_iff] at hNormal
  have hNear := h.near
  -- distances from the new oldest id
  have hShift : ∀ xid, offset s.cache.oldestXid oldest ≤ offset s.cache.oldestXid xid →
      offset oldest xid + offset s.cache.oldestXid oldest = offset s.cache.oldestXid xid := by
    unfold offset at *
    bv_omega
  have hKept : ∀ xid ∈ s.handedOut, transactionIdPrecedes xid oldest = false →
      offset s.cache.oldestXid oldest ≤ offset s.cache.oldestXid xid := by
    intro xid hXid hNot
    have hLess := h.handed_lt xid hXid
    have hTest := precedes_iff_offset (h.handed_normal xid hXid) s.cache.oldestXid hNormal
    simp only [hNot, Bool.false_eq_true, false_iff] at hTest
    omega
  have hRank : rank oldest s.cache.nextXid ≤ rank s.cache.oldestXid s.cache.nextXid := by
    have hOrder := rank_lt_rank_iff h.next_normal h.old_normal hNormal
    have hSum := rank_shift h.next_normal h.old_normal hNormal (by omega)
    omega
  have hNextShift := hShift s.cache.nextXid hNext
  simp only [xidStep, setTransactionIdLimit]
  exact { h with
    old_normal := hNormal
    stop := by dsimp only
    vac := by dsimp only
    near := by
      simp only
      omega
    room := by
      intro hSome
      have hRoom := h.room hSome
      simp only [waiting] at *
      omega
    handed_normal := fun xid hXid => h.handed_normal xid (mem_of_mem_filter hXid)
    handed_lt := by
      intro xid hXid
      obtain ⟨hMem, hNot⟩ := mem_filter.mp hXid
      have hOld := hShift xid (hKept xid hMem (by simpa using hNot))
      have hLess := h.handed_lt xid hMem
      simp only
      omega
    handed_sorted := by
      have hSorted := h.handed_sorted.filter fun xid => !transactionIdPrecedes xid oldest
      refine hSorted.imp_of_mem ?_
      intro newer older hNewer hOlder hLess
      obtain ⟨hMem, hNot⟩ := mem_filter.mp hNewer
      obtain ⟨hMem', hNot'⟩ := mem_filter.mp hOlder
      have hNew := hShift newer (hKept newer hMem (by simpa using hNot))
      have hOld := hShift older (hKept older hMem' (by simpa using hNot'))
      simp only
      omega }

end

theorem XidInv.step (hMin : 100000000 ≤ freezeMaxAge) (hMax : freezeMaxAge ≤ 2000000000)
    (h : XidInv freezeMaxAge s) {event : XidEvent} (hAllowed : event.Allowed s) :
    XidInv freezeMaxAge (xidStep freezeMaxAge s event) := by
  have hCount : waiting s ≤ s.backends.length := countP_le_length
  have hFew := h.few
  cases event with
  | begin i isSubXact =>
    simp only [xidStep]
    split
    case h_2 => exact h
    case h_1 myproc hGet =>
      have hIdle : (XidBackend.mk .idle myproc).isWaiting = false := rfl
      split
      case h_1 hBelow =>
        have hRank := h.rank_of_below hMin hMax hBelow
        exact h.assignXid hGet isSubXact (by rw [hIdle]; simp; omega)
      case h_2 => exact h
      case h_3 notice hPast =>
        have hRank := h.rank_of_past hPast
        have hAll : (s.backends.set i ⟨.waiting isSubXact, myproc⟩).countP XidBackend.isWaiting ≤
            s.backends.length := by
          rw [← length_set]
          exact countP_le_length
        exact { h with
          few := by simpa using h.few
          room := by
            simp only [waiting]
            omega }
  | resume i =>
    simp only [xidStep]
    split
    case h_2 => exact h
    case h_1 isSubXact myproc hGet =>
      have hOne : (XidBackend.mk (.waiting isSubXact) myproc).isWaiting := rfl
      have hSome : 0 < waiting s := countP_pos_iff.mpr ⟨_, mem_of_getElem? hGet, hOne⟩
      have hRoom := h.room hSome
      exact h.assignXid hGet isSubXact (by rw [hOne]; simp; omega)
  | setLimit oldest datoid => exact h.setLimit datoid hAllowed.1 hAllowed.2

end Step

/-! ## Every run -/

/-- An id that can occur in a table: not before the oldest one, and already handed out. -/
def MayOccur (s : XidGen) (xid : TransactionId) : Prop :=
  transactionIdIsNormal xid = true ∧
    offset s.cache.oldestXid xid < offset s.cache.oldestXid s.cache.nextXid

/-- Each id handed out is normal, new, and preceded by those before it and by the oldest id, unless
it is the oldest id; and `TransactionIdPrecedes` is a strict total order on the ids that can
occur. -/
structure XidsInOrder (s : XidGen) : Prop where
  normal : ∀ xid ∈ s.handedOut, transactionIdIsNormal xid = true
  ordered : s.handedOut.Pairwise fun newer older =>
    newer ≠ older ∧ transactionIdPrecedes older newer = true
  oldest : ∀ xid ∈ s.handedOut,
    xid = s.cache.oldestXid ∨ transactionIdPrecedes s.cache.oldestXid xid = true
  occurs : ∀ xid ∈ s.handedOut, MayOccur s xid
  irrefl : ∀ xid, MayOccur s xid → transactionIdPrecedes xid xid = false
  trans : ∀ x y z, MayOccur s x → MayOccur s y → MayOccur s z →
    transactionIdPrecedes x y = true → transactionIdPrecedes y z = true →
    transactionIdPrecedes x z = true
  total : ∀ x y, MayOccur s x → MayOccur s y → x ≠ y →
    transactionIdPrecedes x y = !transactionIdPrecedes y x

theorem offset_injective {oldest x y : TransactionId} (h : offset oldest x = offset oldest y) :
    x = y := by
  unfold offset at h
  bv_omega

theorem XidInv.inOrder {freezeMaxAge : Nat} {s : XidGen} (h : XidInv freezeMaxAge s) :
    XidsInOrder s := by
  have hNear := h.near
  -- on the ids that can occur the comparison is that of the offsets
  have hOrder : ∀ x y, MayOccur s x → MayOccur s y → (transactionIdPrecedes x y ↔
      offset s.cache.oldestXid x < offset s.cache.oldestXid y) := by
    intro x y hx hy
    have hx' := hx.2
    have hy' := hy.2
    exact precedes_iff_offset (normal_iff.mp hx.1) s.cache.oldestXid (normal_iff.mp hy.1)
      (by omega) (by omega)
  have hOccurs : ∀ xid ∈ s.handedOut, MayOccur s xid := fun xid hXid =>
    ⟨normal_iff.mpr (h.handed_normal xid hXid), h.handed_lt xid hXid⟩
  have hZero : offset s.cache.oldestXid s.cache.oldestXid = 0 := by simp [offset]
  exact {
    normal := fun xid hXid => (hOccurs xid hXid).1
    ordered := by
      refine h.handed_sorted.imp_of_mem ?_
      intro newer older hNewer hOlder hLess
      refine ⟨?_, (hOrder older newer (hOccurs older hOlder) (hOccurs newer hNewer)).mpr hLess⟩
      rintro rfl
      exact hLess.false
    oldest := by
      intro xid hXid
      have hLess := h.handed_lt xid hXid
      by_cases hEq : xid = s.cache.oldestXid
      · exact .inl hEq
      · have hPos : offset s.cache.oldestXid xid ≠ 0 := fun hOffset =>
          hEq (offset_injective (hOffset.trans hZero.symm))
        have hOldest : MayOccur s s.cache.oldestXid := ⟨normal_iff.mpr h.old_normal, by omega⟩
        exact .inr ((hOrder _ xid hOldest (hOccurs xid hXid)).mpr (by omega))
    occurs := hOccurs
    irrefl := by
      intro xid hXid
      rw [Bool.eq_false_iff]
      exact fun hSelf => lt_irrefl _ ((hOrder xid xid hXid hXid).mp hSelf)
    trans := by
      intro x y z hx hy hz hxy hyz
      rw [hOrder x y hx hy] at hxy
      rw [hOrder y z hy hz] at hyz
      exact (hOrder x z hx hz).mpr (lt_trans hxy hyz)
    total := by
      intro x y hx hy hNe
      have hOffsets : offset s.cache.oldestXid x ≠ offset s.cache.oldestXid y := fun hEq =>
        hNe (offset_injective hEq)
      rw [Bool.eq_not_iff, ne_eq, Bool.eq_iff_iff, hOrder x y hx hy, hOrder y x hy hx]
      omega }

/-- The state in which the limits have been set for the first time and no call is under way. -/
def startXids (freezeMaxAge : Nat) (oldest : TransactionId) (datoid : Nat) (cache : VariableCache)
    (backends : List XidBackend) : XidGen :=
  ⟨setTransactionIdLimit freezeMaxAge oldest datoid cache, backends, []⟩

/-- **No wraparound.** With at most 999996 backends the ids that can occur in tables are in order in
every state of every run. -/
theorem xids_in_order (freezeMaxAge : Nat) (hMin : 100000000 ≤ freezeMaxAge)
    (hMax : freezeMaxAge ≤ 2000000000) (oldest : TransactionId) (datoid : Nat)
    (cache : VariableCache) (hOldest : transactionIdIsNormal oldest = true)
    (hNext : transactionIdIsNormal cache.nextXid = true)
    (hNear : offset oldest cache.nextXid < 2147483648) (backends : List XidBackend)
    (hFew : backends.length ≤ 999996) (hIdle : ∀ b ∈ backends, b.phase = .idle)
    (events : List XidEvent) (hAllowed : Lib.AllSteps (xidStep freezeMaxAge) XidEvent.Allowed
      (startXids freezeMaxAge oldest datoid cache backends) events) :
    ∀ s ∈ Lib.states (xidStep freezeMaxAge) (startXids freezeMaxAge oldest datoid cache backends)
      events, XidsInOrder s := by
  have hNone : waiting (startXids freezeMaxAge oldest datoid cache backends) = 0 := by
    refine countP_eq_zero.mpr fun b hb => ?_
    simp [XidBackend.isWaiting, hIdle b hb]
  have hStart : XidInv freezeMaxAge (startXids freezeMaxAge oldest datoid cache backends) := {
    old_normal := normal_iff.mp hOldest
    next_normal := normal_iff.mp hNext
    stop := by dsimp only [startXids, setTransactionIdLimit]
    vac := by dsimp only [startXids, setTransactionIdLimit]
    few := hFew
    near := hNear.le
    room := fun hSome => absurd hSome (by omega)
    handed_normal := fun xid hXid => absurd hXid (not_mem_nil)
    handed_lt := fun xid hXid => absurd hXid (not_mem_nil)
    handed_sorted := List.Pairwise.nil }
  intro s hs
  exact (Lib.invariant_of_allSteps (fun s k hInv hOk => hInv.step hMin hMax hOk) events _ hStart
    hAllowed s hs).inOrder

def idleBackend : XidBackend := ⟨.idle, ⟨0, [], false⟩⟩

def waitingBackend : XidBackend := ⟨.waiting false, ⟨0, [], false⟩⟩

def cacheAt (nextXid : TransactionId) : VariableCache := ⟨nextXid, 0, 0, 0, 0, 0, 0⟩

def atStop : XidGen :=
  startXids 200000000 3 1 (cacheAt 2146483649) [idleBackend, idleBackend]

/-- Two backends get past the stop limit together, and then the oldest id moves on. -/
theorem xids_in_order_atStop :
    Lib.AllSteps (xidStep 200000000) XidEvent.Allowed atStop
        [.begin 0 false, .begin 1 true, .resume 1, .resume 0, .setLimit 2000000000 1] ∧
      ∀ s ∈ Lib.states (xidStep 200000000) atStop
        [.begin 0 false, .begin 1 true, .resume 1, .resume 0, .setLimit 2000000000 1],
        XidsInOrder s := by
  refine (and_iff_left_of_imp fun hAllowed => ?_).mpr
    ⟨trivial, trivial, trivial, trivial, ⟨by decide, by decide⟩, trivial⟩
  exact xids_in_order 200000000 (by decide) (by decide) 3 1 (cacheAt 2146483649) rfl rfl (by decide)
    [idleBackend, idleBackend] (by decide) (by simp [idleBackend]) _ hAllowed

/-! ## A million backends -/

/-- Every backend looks at the limits while the next id is still allowed: by induction on those that
have not yet. -/
theorem foldl_begin (freezeMaxAge : Nat) (hPast : checkLimits true cache = .past notice) (m : Nat) :
    ∀ done : List XidBackend,
      ((range' done.length m).map fun i => XidEvent.begin i false).foldl
          (xidStep freezeMaxAge) ⟨cache, done ++ replicate m idleBackend, []⟩ =
        ⟨cache, done ++ replicate m waitingBackend, []⟩ := by
  induction m with
  | zero => simp
  | succ m ih =>
    intro done
    have hGet : (done ++ replicate (m + 1) idleBackend)[done.length]? =
        some idleBackend := by simp [replicate_succ]
    have hSet : (done ++ replicate (m + 1) idleBackend).set done.length waitingBackend =
        (done ++ [waitingBackend]) ++ replicate m idleBackend := by
      simp [replicate_succ]
    have hStep : xidStep freezeMaxAge ⟨cache, done ++ replicate (m + 1) idleBackend, []⟩
        (.begin done.length false) =
        ⟨cache, (done ++ [waitingBackend]) ++ replicate m idleBackend, []⟩ := by
      rw [← hSet]
      unfold xidStep
      simp only [hGet]
      simp only [idleBackend, hPast, waitingBackend]
    have hRest := ih (done ++ [waitingBackend])
    rw [length_append, length_singleton] at hRest
    rw [range'_succ, map_cons, foldl_cons, hStep, hRest, append_assoc,
      singleton_append, ← replicate_succ]

theorem foldl_resume (freezeMaxAge m : Nat) :
    ∀ (done : List XidBackend) (s : XidGen),
      s.backends = done ++ replicate m waitingBackend →
      ∃ t, ((range' done.length m).map XidEvent.resume).foldl (xidStep freezeMaxAge) s = t ∧
        t.cache.oldestXid = s.cache.oldestXid ∧ (∀ xid ∈ s.handedOut, xid ∈ t.handedOut) ∧
        ∀ j < m, transactionIdAdvance^[j] s.cache.nextXid ∈ t.handedOut := by
  induction m with
  | zero =>
    intro done s hBackends
    exact ⟨s, by simp, rfl, fun _ h => h, fun j hj => absurd hj (not_lt_zero j)⟩
  | succ m ih =>
    intro done s hBackends
    have hGet : s.backends[done.length]? = some waitingBackend := by
      simp [hBackends]
    have hStep : xidStep freezeMaxAge s (.resume done.length) =
        assignXid s done.length false waitingBackend.proc := by
      simp only [xidStep, hGet]
      rfl
    have hRest : (assignXid s done.length false waitingBackend.proc).backends =
        (done ++ [⟨.idle, storeXid false s.cache.nextXid waitingBackend.proc⟩]) ++
          replicate m waitingBackend := by
      simp [assignXid, hBackends, replicate_succ]
    obtain ⟨t, hRun, hOldest, hKept, hNew⟩ := ih _ _ hRest
    refine ⟨t, ?_, hOldest, fun xid hXid => hKept xid (mem_cons_of_mem _ hXid), ?_⟩
    · rw [range'_succ, map_cons, foldl_cons, hStep, ← hRun]
      simp
    · intro j hj
      cases j with
      | zero => exact hKept _ mem_cons_self
      | succ j => exact hNew j (by omega)

theorem iterate_advance (xid : TransactionId) (hXid : 3 ≤ xid.toNat) (j : Nat)
    (hRoom : xid.toNat + j ≤ 4294967295) :
    (transactionIdAdvance^[j] xid).toNat = xid.toNat + j := by
  induction j with
  | zero => simp
  | succ j ih =>
    have hPrev := ih (by omega)
    rw [iterate_succ_apply', advance_toNat (by omega), if_neg (by omega)]
    omega

/-- The calls of `n` backends that all look at the limits before the first takes its id. -/
def rush (n : Nat) : List XidEvent :=
  ((range' 0 n).map fun i => XidEvent.begin i false) ++
    (range' 0 n).map XidEvent.resume

theorem rush_allowed (freezeMaxAge n : Nat) (s : XidGen) :
    Lib.AllSteps (xidStep freezeMaxAge) XidEvent.Allowed s (rush n) := by
  refine Lib.allSteps_of_forall (forall_mem_append.mpr ⟨?_, ?_⟩) s
  · exact forall_mem_map.mpr fun i _ _ => trivial
  · exact forall_mem_map.mpr fun i _ _ => trivial

/-- A rush hands out as many ids as there are backends, however few are left before the limits. -/
theorem rush_hands_out (freezeMaxAge n : Nat) (hPast : checkLimits true cache = .past notice) :
    ∃ s ∈ Lib.states (xidStep freezeMaxAge) ⟨cache, replicate n idleBackend, []⟩ (rush n),
      s.cache.oldestXid = cache.oldestXid ∧
        ∀ j < n, transactionIdAdvance^[j] cache.nextXid ∈ s.handedOut := by
  have hBegin := foldl_begin freezeMaxAge hPast n []
  obtain ⟨t, hRun, hOldest, -, hNew⟩ :=
    foldl_resume freezeMaxAge n [] ⟨cache, [] ++ replicate n waitingBackend, []⟩ rfl
  refine ⟨t, ?_, hOldest, hNew⟩
  rw [← hRun, ← hBegin, ← foldl_append]
  exact Lib.foldl_mem_states _ _

/-- The oldest id is 2^31 + 1, so the wrap limit falls on the special id 0 and moves on to 3. The
last of 999999 backends is handed the id 3, which the oldest id does not precede. -/
theorem xids_out_of_order :
    Lib.AllSteps (xidStep 200000000) XidEvent.Allowed
        (startXids 200000000 2147483649 1 (cacheAt 4293967298) (replicate 999999 idleBackend))
        (rush 999999) ∧
      ∃ s ∈ Lib.states (xidStep 200000000)
        (startXids 200000000 2147483649 1 (cacheAt 4293967298) (replicate 999999 idleBackend))
        (rush 999999),
        ∃ xid ∈ s.handedOut, xid ≠ s.cache.oldestXid ∧
          transactionIdPrecedes s.cache.oldestXid xid = false := by
  have hPast : checkLimits true (setTransactionIdLimit 200000000 2147483649 1
      (cacheAt 4293967298)) = .past ⟨false, some (1, 1000001)⟩ := by decide
  have hLast : transactionIdAdvance^[999998] (4293967298 : TransactionId) = 3 := by
    have hBefore := iterate_advance 4293967298 (by decide) 999997 (by decide)
    rw [iterate_succ_apply']
    apply BitVec.eq_of_toNat_eq
    rw [advance_toNat (by rw [hBefore]; decide), hBefore]
    decide
  obtain ⟨s, hs, hOldest, hNew⟩ := rush_hands_out 200000000 999999 hPast
  have hHanded := hNew 999998 (by decide)
  refine ⟨rush_allowed _ _ _, s, hs, 3, ?_, ?_⟩
  · rw [← hLast]
    exact hHanded
  · rw [hOldest]
    decide

end PgTuning.Access
