import PgTuning.Commands.SequenceFetch

/-!
# Sequences across a crash

A crash leaves a sequence with its newest record, or with its page on disk when that was written
after the newest record. The invariant says that either is past every value handed out.
-/

namespace PgTuning.Commands

open List Int SeqState Option

/-- How far along the sequence's direction a value is. -/
def pos (seq : FormPgSequence) (v : Int) : Int := if 0 < seq.incrementBy then v else -v

variable {seq record : FormPgSequence} {v : Int} {i : Nat} {s : SeqState}
  {options : List SeqOption} {page : SeqPage} {e : SeqEvent}

theorem pos_congr {seq' : FormPgSequence} (h : 0 < seq'.incrementBy ↔ 0 < seq.incrementBy)
    (v : Int) : pos seq' v = pos seq v := by
  simp only [pos, h]

theorem pos_add_mul (seq : FormPgSequence) (v n : Int) {increment : Int}
    (hDirection : 0 < increment ↔ 0 < seq.incrementBy) :
    pos seq (v + n * increment) = pos seq v + n * |increment| := by
  unfold pos
  by_cases hUp : 0 < seq.incrementBy
  · rw [if_pos hUp, if_pos hUp, abs_of_pos (hDirection.mpr hUp)]
  · have hDown : increment ≤ 0 := not_lt.mp fun h => hUp (hDirection.mp h)
    rw [if_neg hUp, if_neg hUp, abs_of_nonpos hDown]
    ring

/-- The sequence will not hand out `v` any more, nor anything before it. -/
def Passed (seq : FormPgSequence) (v : Int) : Prop :=
  pos seq v + uncalled seq ≤ pos seq seq.lastValue

/-- A logged tuple takes the place of the page's: it is the same one, or past all the values that
still may be handed out without a record. -/
structure Covers (record seq : FormPgSequence) : Prop where
  increment : record.incrementBy = seq.incrementBy
  ahead : record = seq ∨ (record.isCalled = true ∧
    pos seq seq.lastValue + (seq.logCnt - uncalled seq) * |seq.incrementBy| ≤
      pos seq record.lastValue)

theorem Covers.passed (h : Covers record seq) (hValid : Valid seq)
    (hPassed : Passed seq v) : Passed record v := by
  have hDirection : 0 < record.incrementBy ↔ 0 < seq.incrementBy := by rw [h.increment]
  rcases h.ahead with rfl | ⟨hCalled, hAhead⟩
  · exact hPassed
  · have hLog : 0 ≤ (seq.logCnt - uncalled seq) * |seq.incrementBy| :=
      mul_nonneg (by have := hValid.log; omega) (abs_nonneg _)
    have hUncalled := uncalled_cases seq
    unfold Passed at hPassed ⊢
    rw [pos_congr hDirection, pos_congr hDirection, uncalled_called hCalled]
    omega

/-- The numbers a session holds: a part of the progression that was fetched under its increment, past
by now, and itself past what was returned before the crash. -/
structure Holds (seq : FormPgSequence) (beforeCrash : List Int) (elm : SeqTable) : Prop where
  direction : 0 < elm.increment ↔ 0 < seq.incrementBy
  increment : elm.increment ≠ 0
  progression : ∃ k : Nat, elm.cached = elm.last + k * elm.increment
  passed : Passed seq elm.cached
  fresh : ∀ b ∈ beforeCrash, pos seq b ≤ pos seq elm.last

/-- Whether a session has numbers left. -/
def SeqTable.hasCached (elm : SeqTable) : Prop := elm.last ≠ elm.cached

/-- The invariant of a sequence whose page is `page` and whose newest record is `record`. -/
structure Live (s : SeqState) (page : SeqPage) (record : FormPgSequence) : Prop where
  in_memory : s.page = some page
  valid : Valid page.seq
  record_valid : Valid record
  newest : Lib.newest s.wal = some (page.lsn, record)
  covers : Covers record page.seq
  passed : ∀ v ∈ s.returned ++ s.beforeCrash, Passed page.seq v
  fresh : ∀ v ∈ s.returned, v ∉ s.beforeCrash
  sessions : ∀ i, (s.sessions i).hasCached → Holds page.seq s.beforeCrash (s.sessions i)
  control : s.controlRedo ≤ s.redoRecPtr
  redo : s.redoRecPtr ≤ s.wal.length
  on_disk : page.lsn ≤ s.controlRedo → s.disk = some page
  flushed : s.checkpoint = some true → page.lsn ≤ s.redoRecPtr → s.disk = some page

/-- The invariant while there is no sequence. -/
structure Absent (s : SeqState) : Prop where
  page : s.page = none
  disk : s.disk = none
  newest : Lib.newest s.wal = none
  returned : s.returned = []
  beforeCrash : s.beforeCrash = []
  sessions : ∀ i, ¬(s.sessions i).hasCached
  control : s.controlRedo ≤ s.redoRecPtr
  redo : s.redoRecPtr ≤ s.wal.length

def SeqInv (s : SeqState) : Prop := Absent s ∨ ∃ page record, Live s page record

/-! ## Histories -/

/-- No session but `i` has numbers left. -/
def OthersEmpty (s : SeqState) (i : Nat) : Prop := ∀ j, j ≠ i → ¬(s.sessions j).hasCached

/-- Session `i` has no numbers left that it fetched under another increment. -/
def KeepsIncrement (s : SeqState) (i : Nat) (seq : FormPgSequence) : Prop :=
  (s.sessions i).hasCached → (s.sessions i).increment = seq.incrementBy

/-- The newest record of the sequence counts no values as logged ahead of it. -/
def NewestAdvanced (s : SeqState) : Prop :=
  ∀ lsn record, Lib.newest s.wal = some (lsn, record) →
    record.isCalled = true ∧ record.logCnt = 0

/-- The steps of a history in which no value is repeated. No option makes the sequence cycle or turn
around. A restart or setval waits until the other sessions have used their numbers up. A command that
fails is not run by a session that holds numbers of another increment. And no nextval takes values
without a record from what ALTER SEQUENCE wrote to the log. -/
def SeqEvent.Safe (s : SeqState) : SeqEvent → Prop
  | .create options => .cycle true ∉ options
  | .alter i options => .cycle true ∉ options ∧ ∀ page, s.page = some page →
      match initParams options false page.seq with
      | .error _ => KeepsIncrement s i page.seq
      | .ok _ =>
        if restarts options then OthersEmpty s i
        else ∀ v, .increment v ∈ options → (0 < v ↔ 0 < page.seq.incrementBy)
  | .setval i next _ => ∀ page, s.page = some page →
      if next < page.seq.minValue ∨ next > page.seq.maxValue then KeepsIncrement s i page.seq
      else OthersEmpty s i
  | .nextval i _ => ∀ page, s.page = some page → ¬(s.sessions i).hasCached →
      logit page.seq page.lsn s.redoRecPtr = true ∨ NewestAdvanced s
  | .otherRecord | .beginCheckpoint | .flush | .endCheckpoint | .crash => True

/-! ## One step -/

theorem sessions_setSession {elm : SeqTable} {P : SeqTable → Prop} (hElm : elm.hasCached → P elm)
    (hOthers : ∀ j, j ≠ i → (s.sessions j).hasCached → P (s.sessions j)) :
    ∀ j, ((s.setSession i elm).sessions j).hasCached → P ((s.setSession i elm).sessions j) := by
  intro j
  by_cases hj : j = i
  · rw [hj]
    simpa [setSession] using hElm
  · simpa [setSession, Function.update_of_ne hj] using hOthers j hj

/-- A step that logs a tuple and leaves one it covers. -/
theorem live_logPage (hControl : s.controlRedo ≤ s.redoRecPtr) (hRedo : s.redoRecPtr ≤ s.wal.length)
    (hValid : Valid seq) (hRecord : Valid record) (hCovers : Covers record seq)
    (hPassed : ∀ v ∈ s.returned ++ s.beforeCrash, Passed seq v)
    (hFresh : ∀ v ∈ s.returned, v ∉ s.beforeCrash)
    (hSessions : ∀ i, (s.sessions i).hasCached → Holds seq s.beforeCrash (s.sessions i)) :
    Live (s.logPage record seq) ⟨seq, s.wal.length + 1⟩ record where
  in_memory := rfl
  valid := hValid
  record_valid := hRecord
  newest := Lib.newest_append_some s.wal record
  covers := hCovers
  passed := hPassed
  fresh := hFresh
  sessions := hSessions
  control := hControl
  redo := by
    simp only [logPage, length_append]
    omega
  on_disk := by
    simp only [logPage]
    omega
  flushed := by
    simp only [logPage]
    omega

/-- The tuple that a command logs past all the values it allows. -/
theorem valid_advanced (h : Valid seq) (hLower : seq.minValue ≤ v) (hUpper : v ≤ seq.maxValue) :
    Valid { seq with lastValue := v, isCalled := true, logCnt := 0 } :=
  { h with log := le_refl 0, lower := hLower, upper := hUpper }

theorem SeqInv.defineSequence (h : SeqInv s) (hCycle : .cycle true ∉ options) :
    SeqInv (defineSequence options s) := by
  rcases h with hAbsent | ⟨page, record, hLive⟩
  · cases hInit : initParams options true default with
    | error e =>
      simp only [Commands.defineSequence, hAbsent.page, hInit]
      exact .inl hAbsent
    | ok new =>
      have hAccepted := accepted_of_initParams hInit
      have hValid : Valid new := valid_of_accepted hAccepted (by simp) hCycle
      have hState : new.isCalled = false ∧ new.logCnt = 1 := by
        rcases hAccepted.state with ⟨-, hState⟩ | ⟨hInit, -⟩
        · exact hState
        · exact absurd hInit (by decide)
      have hCovers : Covers { new with isCalled := true, logCnt := 0 } new :=
        ⟨rfl, .inr ⟨rfl, by simp [uncalled, hState.1, hState.2]⟩⟩
      simp only [Commands.defineSequence, hAbsent.page, hInit]
      refine .inr ⟨_, _, live_logPage (s := s.forgetReturned) hAbsent.control hAbsent.redo hValid
        (valid_advanced hValid hValid.lower hValid.upper) hCovers (by simp [forgetReturned])
        (by simp [forgetReturned]) ?_⟩
      exact fun i hCached => absurd hCached (hAbsent.sessions i)
  · simp only [Commands.defineSequence, hLive.in_memory]
    exact .inr ⟨page, record, hLive⟩

/-- A failed command only renews the session's copy of the increment. -/
theorem Live.readInfo (h : Live s page record) (hKeeps : KeepsIncrement s i page.seq) :
    Live (s.setSession i (readInfo (s.sessions i) page.seq)) page record :=
  { h with
    sessions := by
      refine sessions_setSession ?_ fun j _ => h.sessions j
      intro hCached
      have hSame : Commands.readInfo (s.sessions i) page.seq = s.sessions i := by
        unfold Commands.readInfo
        rw [← hKeeps hCached]
      rw [hSame]
      exact h.sessions i hCached }

theorem Covers.refl (seq : FormPgSequence) : Covers seq seq := ⟨rfl, .inl rfl⟩

section

variable {old new : FormPgSequence} (hAccepted : Accepted options false old new)
include hAccepted

/-- ALTER SEQUENCE without RESTART keeps the last value and the direction. -/
theorem passed_altered
    (hRestart : restarts options = false) (hDirection : 0 < new.incrementBy ↔ 0 < old.incrementBy)
    (h : Passed old v) : Passed new v := by
  rcases hAccepted.state with ⟨hSome, -⟩ | ⟨-, hLast, hCalled, -⟩
  · simp [hRestart] at hSome
  · unfold Passed at h ⊢
    have hUncalled : uncalled new = uncalled old := by simp only [uncalled, hCalled]
    rw [pos_congr hDirection, pos_congr hDirection, hUncalled, hLast]
    exact h

theorem direction_altered (hSame : ∀ v, .increment v ∈ options → (0 < v ↔ 0 < old.incrementBy)) :
    0 < new.incrementBy ↔ 0 < old.incrementBy := by
  rcases hAccepted.increment with ⟨v, hMem, -, hNew⟩ | hNew
  · rw [hNew]
    exact hSame v hMem
  · rw [hNew]
    simp

end

theorem Live.alterSequence (h : Live s page record)
    (hSafe : (SeqEvent.alter i options).Safe s) : SeqInv (alterSequence i options s) := by
  obtain ⟨hCycle, hSafe⟩ := hSafe
  have hPage := hSafe page h.in_memory
  cases hInit : initParams options false page.seq with
  | error e =>
    rw [hInit] at hPage
    simp only [Commands.alterSequence, h.in_memory, hInit]
    exact .inr ⟨page, record, h.readInfo hPage⟩
  | ok new =>
    rw [hInit] at hPage
    simp only [Commands.alterSequence, h.in_memory, hInit]
    have hAccepted := accepted_of_initParams hInit
    have hValid : Valid new := valid_of_accepted hAccepted (fun _ => h.valid) hCycle
    -- the session's own numbers are forgotten
    have hOwn : ∀ (P : SeqTable → Prop) (elm : SeqTable),
        SeqTable.hasCached { elm with cached := elm.last } → P { elm with cached := elm.last } :=
      fun P elm hCached => absurd rfl hCached
    cases hRestart : restarts options with
    | true =>
      rw [hRestart] at hPage
      refine .inr ⟨_, _, live_logPage (s := (s.setSession i _).forgetReturned) h.control h.redo
        hValid hValid (Covers.refl new) (by simp [forgetReturned])
        (by simp [forgetReturned]) ?_⟩
      exact sessions_setSession (hOwn _ _) fun j hj hCached => absurd hCached (hPage j hj)
    | false =>
      rw [hRestart] at hPage
      have hDirection := direction_altered hAccepted hPage
      refine .inr ⟨_, _, live_logPage h.control h.redo hValid hValid (Covers.refl new)
        (fun v hv => passed_altered hAccepted hRestart hDirection (h.passed v hv)) h.fresh ?_⟩
      refine sessions_setSession (hOwn _ _) ?_
      intro j _ hCached
      have hHolds := h.sessions j hCached
      exact { hHolds with
        direction := hHolds.direction.trans hDirection.symm
        passed := passed_altered hAccepted hRestart hDirection hHolds.passed
        fresh := by
          intro b hb
          rw [pos_congr hDirection, pos_congr hDirection]
          exact hHolds.fresh b hb }

theorem Live.doSetval (h : Live s page record) {next : Int} {iscalled : Bool}
    (hSafe : (SeqEvent.setval i next iscalled).Safe s) : SeqInv (doSetval i next iscalled s) := by
  have hPage := hSafe page h.in_memory
  by_cases hBounds : next < page.seq.minValue ∨ next > page.seq.maxValue
  · rw [if_pos hBounds] at hPage
    simp only [Commands.doSetval, h.in_memory, if_pos hBounds]
    exact .inr ⟨page, record, h.readInfo hPage⟩
  · rw [if_neg hBounds] at hPage
    simp only [Commands.doSetval, h.in_memory, if_neg hBounds]
    have hLower : page.seq.minValue ≤ next := by omega
    have hUpper : next ≤ page.seq.maxValue := by omega
    have hAdvanced := valid_advanced h.valid hLower hUpper
    refine .inr ⟨_, _, live_logPage (s := (s.setSession i _).forgetReturned) h.control h.redo
      ?_ hAdvanced ?_ (by simp [forgetReturned]) (by simp [forgetReturned]) ?_⟩
    · exact { hAdvanced with log := by cases iscalled <;> simp [uncalled] }
    · refine ⟨rfl, .inr ⟨rfl, ?_⟩⟩
      cases iscalled <;> simp [uncalled]
    · exact sessions_setSession (fun hCached => absurd rfl hCached)
        fun j hj hCached => absurd hCached (hPage j hj)

/-! ## A call of nextval -/

/-- The tuple that a call leaves on the page. -/
def servedTuple (seq : FormPgSequence) (r : Nextval) : FormPgSequence :=
  { seq with lastValue := r.last, isCalled := true, logCnt := r.log }

section Served

variable {seq : FormPgSequence} {forced : Bool} {r : Nextval} {c m : Nat}

section

variable (h : Served seq forced r c m)
include h

theorem Served.pos_last : pos seq r.last = pos seq seq.lastValue + c * |seq.incrementBy| := by
  rw [h.last, pos_add_mul seq _ _ Iff.rfl]

theorem Served.pos_result :
    pos seq r.result = pos seq seq.lastValue + (1 - uncalled seq) * |seq.incrementBy| := by
  rw [h.result, pos_add_mul seq _ _ Iff.rfl]

theorem Served.valid (hValid : Valid seq) : Valid (servedTuple seq r) := by
  have hLower := hValid.lower
  have hUpper := hValid.upper
  have hEndLower := h.lower
  have hEndUpper := h.upper
  have hCached : (c : Int) ≤ m := ofNat_le.mpr h.cached_le
  -- the last value cached lies between the old one and the last one fetched
  have hBetween : seq.minValue ≤ r.last ∧ r.last ≤ seq.maxValue := by
    rw [h.last]
    rcases lt_or_gt_of_ne hValid.increment with hDown | hUp
    · have hStart : (c : Int) * seq.incrementBy ≤ 0 :=
        mul_nonpos_of_nonneg_of_nonpos (natCast_nonneg c) (le_of_lt hDown)
      have hEnd : (m : Int) * seq.incrementBy ≤ c * seq.incrementBy :=
        mul_le_mul_of_nonpos_right hCached (le_of_lt hDown)
      omega
    · have hStart : 0 ≤ (c : Int) * seq.incrementBy :=
        mul_nonneg (natCast_nonneg c) (le_of_lt hUp)
      have hEnd : (c : Int) * seq.incrementBy ≤ m * seq.incrementBy :=
        mul_le_mul_of_nonneg_right hCached (le_of_lt hUp)
      omega
  exact { hValid with log := h.log_nonneg, lower := hBetween.1, upper := hBetween.2 }

theorem Served.passed {v : Int} (hPassed : Passed seq v) : Passed (servedTuple seq r) v := by
  have hUncalled := uncalled_cases seq
  have hMore : 0 ≤ (c : Int) * |seq.incrementBy| :=
    mul_nonneg (natCast_nonneg c) (abs_nonneg _)
  have hLast := h.pos_last
  unfold Passed at hPassed
  show pos seq v + 0 ≤ pos seq r.last
  omega

theorem Served.passed_result : Passed (servedTuple seq r) r.result := by
  have hValue := h.some_value
  have hMore : (1 - uncalled seq) * |seq.incrementBy| ≤ c * |seq.incrementBy| :=
    mul_le_mul_of_nonneg_right (by omega) (abs_nonneg _)
  have hLast := h.pos_last
  have hResult := h.pos_result
  show pos seq r.result + 0 ≤ pos seq r.last
  omega

/-- The value returned is past all that the tuple had passed. -/
theorem Served.lt_result (hValid : Valid seq) {b : Int}
    (hPassed : Passed seq b) : pos seq b < pos seq r.result := by
  have hPos : 0 < |seq.incrementBy| := abs_pos.mpr hValid.increment
  have hResult := h.pos_result
  unfold Passed at hPassed
  rcases uncalled_cases seq with hZero | hOne
  · rw [hZero] at hResult hPassed
    omega
  · rw [hOne] at hResult hPassed
    omega

theorem Served.holds (hValid : Valid seq) {beforeCrash : List Int}
    (hPassed : ∀ b ∈ beforeCrash, Passed seq b) :
    Holds (servedTuple seq r) beforeCrash
      { lastValid := true, last := r.result, cached := r.last, increment := seq.incrementBy } where
  direction := Iff.rfl
  increment := hValid.increment
  progression := by
    have hValue := h.some_value
    refine ⟨(c + uncalled seq - 1).toNat, ?_⟩
    rw [h.last, h.result, toNat_of_nonneg (by omega)]
    ring
  passed := by
    show pos seq r.last + 0 ≤ pos seq r.last
    omega
  fresh := fun b hb => le_of_lt (h.lt_result hValid (hPassed b hb))

end

/-- A record written now takes the place of the new tuple. -/
theorem Served.covers_logged (h : Served seq true r c m) :
    Covers { seq with lastValue := seq.lastValue + m * seq.incrementBy, isCalled := true, logCnt := 0 }
      (servedTuple seq r) := by
  refine ⟨rfl, .inr ⟨rfl, ?_⟩⟩
  show pos seq r.last + (r.log - 0) * |seq.incrementBy| ≤
    pos seq (seq.lastValue + m * seq.incrementBy)
  rw [h.pos_last, (h.logged rfl).1, pos_add_mul seq _ _ Iff.rfl]
  apply le_of_eq
  ring

/-- Without a record the one there was still takes the tuple's place. -/
theorem Served.covers_unlogged (h : Served seq false r c m) {record : FormPgSequence}
    (hCovers : Covers record seq) (hNew : record ≠ seq) : Covers record (servedTuple seq r) := by
  rcases hCovers.ahead with hSame | ⟨hCalled, hAhead⟩
  · exact absurd hSame hNew
  · refine ⟨hCovers.increment, .inr ⟨hCalled, ?_⟩⟩
    have hLess : (c + r.log) * |seq.incrementBy| ≤
        (seq.logCnt - uncalled seq) * |seq.incrementBy| :=
      mul_le_mul_of_nonneg_right (by have := (h.unlogged rfl).1; omega) (abs_nonneg _)
    show pos seq r.last + (r.log - 0) * |seq.incrementBy| ≤ pos seq record.lastValue
    rw [h.pos_last]
    rw [add_mul] at hLess
    rw [sub_zero]
    omega

end Served

section

variable (h : Live s page record)
include h

theorem Live.fromCache (hCached : (s.sessions i).hasCached) :
    Live { s.setSession i { s.sessions i with
             last := (s.sessions i).last + (s.sessions i).increment } with
           returned := ((s.sessions i).last + (s.sessions i).increment) :: s.returned }
      page record := by
  obtain ⟨hDirection, hIncrement, ⟨k, hk⟩, hPassed, hFresh⟩ := h.sessions i hCached
  have hPos : 0 < |(s.sessions i).increment| := abs_pos.mpr hIncrement
  have hSome : 1 ≤ k := by
    rcases Nat.eq_zero_or_pos k with hZero | hSome
    · rw [hZero] at hk
      exact absurd (by simpa using hk.symm) hCached
    · exact hSome
  have hNext : pos page.seq ((s.sessions i).last + (s.sessions i).increment) =
      pos page.seq (s.sessions i).last + |(s.sessions i).increment| := by
    have hOne := pos_add_mul page.seq (s.sessions i).last 1 hDirection
    rwa [one_mul, one_mul] at hOne
  have hLast : pos page.seq (s.sessions i).cached =
      pos page.seq (s.sessions i).last + k * |(s.sessions i).increment| := by
    rw [hk, pos_add_mul page.seq _ _ hDirection]
  have hWithin : 1 * |(s.sessions i).increment| ≤ k * |(s.sessions i).increment| :=
    mul_le_mul_of_nonneg_right (by omega) (abs_nonneg _)
  refine { h with passed := ?_, fresh := ?_, sessions := ?_ }
  · refine forall_mem_cons.mpr ⟨?_, h.passed⟩
    unfold Passed at hPassed ⊢
    omega
  · refine forall_mem_cons.mpr ⟨fun hb => ?_, h.fresh⟩
    have hLe := hFresh _ hb
    omega
  · refine sessions_setSession ?_ fun j _ => h.sessions j
    intro _
    refine ⟨hDirection, hIncrement, ⟨k - 1, ?_⟩, hPassed, ?_⟩
    · show (s.sessions i).cached = _
      rw [hk]
      push_cast [hSome]
      ring
    · intro b hb
      have hLe := hFresh b hb
      show pos page.seq b ≤ pos page.seq ((s.sessions i).last + (s.sessions i).increment)
      omega

theorem Live.beginCheckpoint : Live (beginCheckpoint s) page record := by
  unfold Commands.beginCheckpoint
  split
  · exact h
  · have hRedo := h.redo
    exact { h with
      control := le_trans h.control hRedo
      redo := le_refl s.wal.length
      flushed := fun hFlushed => absurd hFlushed (by simp) }

/-- A call that reaches the page, after the checkpoint that may begin during it. -/
theorem Live.serve (i : Nat) {forced : Bool} {r : Nextval}
    {c m : Nat} (hServed : Served page.seq forced r c m)
    (hForced : forced = false → record ≠ page.seq ∧ s.controlRedo < page.lsn ∧
      (s.checkpoint = some true → s.redoRecPtr < page.lsn)) :
    SeqInv (match r.logged with
      | some logged => logPage
          { s.setSession i { Commands.readInfo (s.sessions i) page.seq with
              last := r.result, cached := r.last, lastValid := true } with
            returned := r.result :: s.returned } logged (servedTuple page.seq r)
      | none =>
        { s.setSession i { Commands.readInfo (s.sessions i) page.seq with
            last := r.result, cached := r.last, lastValid := true } with
          returned := r.result :: s.returned
          page := some ⟨servedTuple page.seq r, page.lsn⟩ }) := by
  have hBefore : ∀ b ∈ s.beforeCrash, Passed page.seq b := fun b hb =>
    h.passed b (mem_append_right _ hb)
  have hPassed : ∀ v ∈ (r.result :: s.returned) ++ s.beforeCrash,
      Passed (servedTuple page.seq r) v := by
    refine forall_mem_cons.mpr ⟨hServed.passed_result, fun v hv => ?_⟩
    exact hServed.passed (h.passed v hv)
  have hFresh : ∀ v ∈ r.result :: s.returned, v ∉ s.beforeCrash := by
    refine forall_mem_cons.mpr ⟨fun hb => ?_, h.fresh⟩
    exact lt_irrefl _ (hServed.lt_result h.valid (hBefore _ hb))
  have hSessions := sessions_setSession (i := i) (fun _ => hServed.holds h.valid hBefore)
    (fun j _ hCached =>
      have hHolds := h.sessions j hCached
      { hHolds with passed := hServed.passed hHolds.passed })
  cases forced with
  | true =>
    rw [(hServed.logged rfl).2]
    exact .inr ⟨_, _, live_logPage h.control h.redo (hServed.valid h.valid)
      (valid_advanced h.valid hServed.lower hServed.upper) hServed.covers_logged hPassed hFresh
      hSessions⟩
  | false =>
    obtain ⟨hNew, hControl, hFlushed⟩ := hForced rfl
    rw [(hServed.unlogged rfl).2]
    refine .inr ⟨⟨servedTuple page.seq r, page.lsn⟩, record, ?_⟩
    exact { h with
      in_memory := rfl
      valid := hServed.valid h.valid
      covers := hServed.covers_unlogged h.covers hNew
      passed := hPassed
      fresh := hFresh
      sessions := hSessions
      on_disk := fun hOld => absurd hOld hControl.not_ge
      flushed := fun hTrue hOld => absurd hOld (Nat.not_le.mpr (hFlushed hTrue)) }

omit h in
/-- The tuple that counts no values as logged ahead forces a record. -/
theorem logit_of_advanced (hValid : Valid seq) (hCalled : seq.isCalled)
    (hLog : seq.logCnt = 0) (lsn redoptr : Nat) : logit seq lsn redoptr := by
  have hCache := hValid.cache
  simp [logit, uncalled_called hCalled, hLog, hCache]

theorem Live.nextvalInternal {checkpointBegins : Bool}
    (hSafe : (SeqEvent.nextval i checkpointBegins).Safe s) :
    SeqInv (nextvalInternal i checkpointBegins s) := by
  by_cases hCached : (s.sessions i).last ≠ (s.sessions i).cached
  · simp only [Commands.nextvalInternal, h.in_memory, if_pos hCached]
    exact .inr ⟨page, record, h.fromCache hCached⟩
  · simp only [Commands.nextvalInternal, h.in_memory, if_neg hCached]
    cases hFetch : nextvalFetch page.seq page.lsn s.redoRecPtr with
    | error e =>
      exact .inr ⟨page, record, h.readInfo fun hSome => absurd hSome hCached⟩
    | ok r =>
      obtain ⟨c, m, hServed⟩ := served_of_nextvalFetch h.valid hFetch
      have hForced : logit page.seq page.lsn s.redoRecPtr = false →
          record ≠ page.seq ∧ s.redoRecPtr < page.lsn := by
        intro hUnforced
        have hOld := (Bool.or_eq_false_iff.mp hUnforced).2
        rw [decide_eq_false_iff_not, Nat.not_le] at hOld
        refine ⟨?_, hOld⟩
        intro hSame
        rcases hSafe page h.in_memory hCached with hTrue | hAdvanced
        · exact absurd hTrue (by simp [hUnforced])
        · obtain ⟨hCalled, hLog⟩ := hAdvanced _ _ h.newest
          rw [hSame] at hCalled hLog
          rw [logit_of_advanced h.valid hCalled hLog] at hUnforced
          cases hUnforced
      have hServe := h.serve i hServed fun hUnforced =>
        ⟨(hForced hUnforced).1, lt_of_le_of_lt h.control (hForced hUnforced).2,
          fun _ => (hForced hUnforced).2⟩
      cases checkpointBegins with
      | false => exact hServe
      | true =>
        have hLive := h.beginCheckpoint
        rw [if_pos rfl]
        unfold Commands.beginCheckpoint at hLive ⊢
        cases hRunning : s.checkpoint with
        | some flushed =>
          rw [hRunning] at hLive
          exact hServe
        | none =>
          rw [hRunning] at hLive
          exact hLive.serve i hServed fun hUnforced =>
            ⟨(hForced hUnforced).1, lt_of_le_of_lt h.control (hForced hUnforced).2,
              fun hFlushed => absurd hFlushed (by simp)⟩

/-! ## Checkpoints and crashes -/

theorem Live.otherRecord : Live { s with wal := s.wal ++ [none] } page record :=
  { h with
    newest := by rw [Lib.newest_append_none, h.newest]
    redo := by
      have hRedo := h.redo
      simp only [length_append]
      omega }

theorem Live.flushPage : Live (flushPage s) page record :=
  { h with
    on_disk := fun _ => h.in_memory
    flushed := fun _ _ => h.in_memory }

theorem Live.endCheckpoint : Live (endCheckpoint s) page record := by
  unfold Commands.endCheckpoint
  split
  · rename_i hFlushed
    exact { h with
      control := le_refl s.redoRecPtr
      on_disk := h.flushed hFlushed
      flushed := fun hRunning => absurd hRunning (by simp) }
  · exact h

/-- Recovery leaves the newest record, or the page as it was when that is what the disk has. -/
theorem Live.crash : SeqInv (crash s) := by
  have hReplay := Lib.replay_eq seqRedo s.controlRedo s.wal s.disk
  rw [h.newest] at hReplay
  simp only [] at hReplay
  have hRedo := le_trans h.control h.redo
  by_cases hReached : s.controlRedo < page.lsn
  · rw [if_pos hReached] at hReplay
    refine .inr ⟨⟨record, page.lsn⟩, record, ?_⟩
    exact { h with
      in_memory := hReplay
      valid := h.record_valid
      covers := Covers.refl record
      passed := fun v hv => h.covers.passed h.valid (h.passed v hv)
      fresh := fun v hv => absurd hv not_mem_nil
      sessions := fun i hCached => absurd rfl hCached
      control := le_refl s.controlRedo
      redo := hRedo
      on_disk := fun hOld => absurd hOld hReached.not_ge
      flushed := fun hRunning => absurd hRunning (by simp [Commands.crash]) }
  · have hDisk := h.on_disk (Nat.not_lt.mp hReached)
    rw [if_neg hReached, hDisk] at hReplay
    refine .inr ⟨page, record, ?_⟩
    exact { h with
      in_memory := by
        rw [Commands.crash, hDisk]
        exact hReplay
      fresh := fun v hv => absurd hv not_mem_nil
      sessions := fun i hCached => absurd rfl hCached
      control := le_refl s.controlRedo
      redo := hRedo
      flushed := fun hRunning => absurd hRunning (by simp [Commands.crash]) }

end

/-- While there is no sequence, no event but its creation changes that. -/
theorem Absent.step (h : Absent s) (hSafe : e.Safe s) : SeqInv (seqStep s e) := by
  have hControl := h.control
  have hRedo := h.redo
  cases e with
  | create options => exact SeqInv.defineSequence (.inl h) hSafe
  | alter i options =>
    simp only [seqStep, alterSequence, h.page]
    exact .inl h
  | setval i next iscalled =>
    simp only [seqStep, doSetval, h.page]
    exact .inl h
  | nextval i checkpointBegins =>
    simp only [seqStep, nextvalInternal, h.page]
    exact .inl h
  | otherRecord =>
    refine .inl { h with newest := ?_, redo := ?_ }
    · simp [seqStep, h.newest]
    · simp only [seqStep, length_append]
      omega
  | beginCheckpoint =>
    simp only [seqStep, beginCheckpoint]
    split
    · exact .inl h
    · exact .inl { h with control := le_trans hControl hRedo, redo := le_refl s.wal.length }
  | flush => exact .inl { h with disk := h.page }
  | endCheckpoint =>
    simp only [seqStep, endCheckpoint]
    split
    · exact .inl { h with control := le_refl s.redoRecPtr }
    · exact .inl h
  | crash =>
    have hReplay := Lib.replay_eq seqRedo s.controlRedo s.wal s.disk
    rw [h.newest] at hReplay
    exact .inl { h with
      page := hReplay.trans h.disk
      returned := rfl
      beforeCrash := by simp [seqStep, crash, h.returned, h.beforeCrash]
      sessions := fun i hCached => hCached rfl
      control := le_refl s.controlRedo
      redo := le_trans hControl hRedo }

theorem SeqInv.step (h : SeqInv s) (hSafe : e.Safe s) : SeqInv (seqStep s e) := by
  rcases h with hAbsent | ⟨page, record, hLive⟩
  · exact hAbsent.step hSafe
  · cases e with
    | create options => exact SeqInv.defineSequence (.inr ⟨page, record, hLive⟩) hSafe
    | alter i options => exact hLive.alterSequence hSafe
    | setval i next iscalled => exact hLive.doSetval hSafe
    | nextval i checkpointBegins => exact hLive.nextvalInternal hSafe
    | otherRecord => exact .inr ⟨page, record, hLive.otherRecord⟩
    | beginCheckpoint => exact .inr ⟨page, record, hLive.beginCheckpoint⟩
    | flush => exact .inr ⟨page, record, hLive.flushPage⟩
    | endCheckpoint => exact .inr ⟨page, record, hLive.endCheckpoint⟩
    | crash => exact hLive.crash

/-! ## Every history -/

theorem seqInv_empty : SeqInv empty :=
  .inl ⟨rfl, rfl, rfl, rfl, rfl, fun _ hCached => hCached rfl, le_refl 0, le_refl 0⟩

/-- In every history with safe steps, with checkpoints and crashes at any point, no nextval returns a
value that one had returned before a crash, since the last setval, restart or creation. -/
theorem nextval_never_repeats (events : List SeqEvent)
    (hSafe : Lib.AllSteps seqStep SeqEvent.Safe SeqState.empty events) :
    ∀ s ∈ Lib.states seqStep SeqState.empty events, ∀ v ∈ s.returned, v ∉ s.beforeCrash := by
  intro s hs v hv hBefore
  have hInv := Lib.invariant_of_allSteps (fun s e h hOk => SeqInv.step h hOk) events _ seqInv_empty
    hSafe s hs
  rcases hInv with hAbsent | ⟨page, record, hLive⟩
  · rw [hAbsent.returned] at hv
    cases hv
  · exact hLive.fresh v hv hBefore

/-- Two sessions with five numbers each, a checkpoint that begins during a call, and a crash. -/
def cachedEvents : List SeqEvent :=
  [.create [.cache 5], .nextval 0 false, .nextval 0 false, .nextval 1 true, .flush,
    .endCheckpoint, .crash, .nextval 0 false]

theorem nextval_never_repeats_cached :
    Lib.AllSteps seqStep SeqEvent.Safe SeqState.empty cachedEvents ∧
      ∀ s ∈ Lib.states seqStep SeqState.empty cachedEvents, ∀ v ∈ s.returned, v ∉ s.beforeCrash := by
  refine (and_iff_left_of_imp fun hSafe => nextval_never_repeats _ hSafe).mpr
    ⟨by simp [SeqEvent.Safe], ?_, ?_, ?_, trivial, trivial, trivial, ?_, trivial⟩
  · rintro page hPage -
    obtain rfl := some.inj hPage
    exact .inl (by decide)
  · intro page hPage hNone
    exact absurd (by unfold SeqTable.hasCached; decide) hNone
  · rintro page hPage -
    refine .inr fun lsn record hNewest => ?_
    obtain rfl := (Prod.mk.inj (some.inj hNewest)).2
    exact ⟨rfl, rfl⟩
  · rintro page hPage -
    obtain rfl := some.inj hPage
    exact .inl (by decide)

/-- ALTER SEQUENCE logs the tuple with 32 values counted as logged ahead. The next nextval returns 3
without a record, and after the crash and the checkpoint that ends recovery, nextval returns 3. -/
theorem nextval_repeats_after_alter :
    ∃ s ∈ Lib.states seqStep SeqState.empty
      [.create [], .nextval 0 false, .nextval 0 false, .alter 0 [.maxvalue (some 100)],
        .nextval 0 false, .crash, .beginCheckpoint, .flush, .endCheckpoint, .nextval 0 false],
      ∃ v ∈ s.returned, v ∈ s.beforeCrash := by
  refine ⟨_, Lib.foldl_mem_states _ _, 3, ?_, ?_⟩
  · decide
  · decide

end PgTuning.Commands
