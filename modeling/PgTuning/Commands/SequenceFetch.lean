import Mathlib.Tactic.Ring
import Mathlib.Tactic.Linarith
import PgTuning.Commands.Sequence
import PgTuning.Lib.Outcome

/-!
# What the options and a fetch leave in the tuple

Every tuple that passed the checks of `init_params` is `Valid`, and what `nextval` takes from a
valid tuple of a sequence that does not cycle is an arithmetic progression.
-/

namespace PgTuning.Commands

open Lib.Outcome (bind_eq_ok)

/-- What the checks of CREATE and ALTER SEQUENCE leave true of a tuple that does not cycle. -/
structure Valid (seq : FormPgSequence) : Prop where
  increment : seq.incrementBy ≠ 0
  cache : 0 < seq.cacheValue
  log : uncalled seq ≤ seq.logCnt
  lower : seq.minValue ≤ seq.lastValue
  upper : seq.lastValue ≤ seq.maxValue
  cycled : seq.isCycled = false

variable {seq old : FormPgSequence} {options : List SeqOption} {opts : SeqOptions}
  {isInit : Bool} {new : FormPgSequence} {opts' : SeqOptions}

theorem uncalled_called (h : seq.isCalled) : uncalled seq = 0 := by
  simp [uncalled, h]

theorem uncalled_cases (seq : FormPgSequence) : uncalled seq = 0 ∨ uncalled seq = 1 := by
  unfold uncalled
  split <;> simp

/-! ## Options -/

/-- The options collected are options of the list. -/
structure Collected (options : List SeqOption) (opts : SeqOptions) : Prop where
  increment : ∀ v, opts.incrementBy = some v → .increment v ∈ options
  restart : ∀ v, opts.restartValue = some v → .restart v ∈ options
  cycle : ∀ v, opts.isCycled = some v → .cycle v ∈ options

theorem takeOption_eq_ok {α : Type} {found found' : Option α} {value : α}
    (h : takeOption found value = .ok found') : found' = some value := by
  unfold takeOption at h
  split at h
  · cases h
  · cases h
    rfl

theorem Collected.add {o : SeqOption} (hOpts : Collected options opts)
    (ho : o ∈ options) (h : opts.add o = .ok opts') : Collected options opts' := by
  obtain ⟨hInc, hRestart, hCycle⟩ := hOpts
  cases o with
  | increment v =>
    obtain ⟨found, hTake, hNew⟩ := bind_eq_ok.mp h
    cases hNew
    refine ⟨?_, hRestart, hCycle⟩
    intro w hw
    rw [takeOption_eq_ok hTake] at hw
    cases hw
    exact ho
  | restart v =>
    obtain ⟨found, hTake, hNew⟩ := bind_eq_ok.mp h
    cases hNew
    refine ⟨hInc, ?_, hCycle⟩
    intro w hw
    rw [takeOption_eq_ok hTake] at hw
    cases hw
    exact ho
  | cycle v =>
    obtain ⟨found, hTake, hNew⟩ := bind_eq_ok.mp h
    cases hNew
    refine ⟨hInc, hRestart, ?_⟩
    intro w hw
    rw [takeOption_eq_ok hTake] at hw
    cases hw
    exact ho
  | start v | maxvalue v | minvalue v | cache v | ownedBy v =>
    obtain ⟨found, -, hNew⟩ := bind_eq_ok.mp h
    cases hNew
    exact ⟨hInc, hRestart, hCycle⟩

theorem collected_of_foldlM {all : List SeqOption}
    (hAll : ∀ o ∈ options, o ∈ all) (hOpts : Collected all opts)
    (h : options.foldlM SeqOptions.add opts = .ok opts') : Collected all opts' := by
  induction options generalizing opts with
  | nil =>
    cases h
    exact hOpts
  | cons o options ih =>
    obtain ⟨mid, hAdd, hRest⟩ := bind_eq_ok.mp h
    exact ih (fun o' ho' => hAll o' (List.mem_cons_of_mem o ho'))
      (hOpts.add (hAll o List.mem_cons_self) hAdd) hRest

/-- What an accepted list of options makes of a tuple, as far as its state goes. -/
structure Accepted (options : List SeqOption) (isInit : Bool) (old new : FormPgSequence) :
    Prop where
  increment : (∃ v, .increment v ∈ options ∧ v ≠ 0 ∧ new.incrementBy = v) ∨
    new.incrementBy = if isInit then 1 else old.incrementBy
  cycled : .cycle new.isCycled ∈ options ∨
    new.isCycled = if isInit then false else old.isCycled
  state : ((isInit = true ∨ restarts options = true) ∧ new.isCalled = false ∧ new.logCnt = 1) ∨
    (isInit = false ∧ new.lastValue = old.lastValue ∧ new.isCalled = old.isCalled ∧
      new.logCnt = old.logCnt)
  lower : new.minValue ≤ new.lastValue
  upper : new.lastValue ≤ new.maxValue
  cache : 0 < new.cacheValue ∨ new.cacheValue = if isInit then 1 else old.cacheValue

theorem ereportIf_eq_ok {bad : Prop} [Decidable bad] {e : SeqError} {u : Unit}
    (h : ereportIf bad e = .ok u) : ¬bad := by
  unfold ereportIf at h
  split at h
  · cases h
  · assumption

theorem newIncrementBy_eq_ok {v : Int} (hFrom : Collected options opts)
    (h : newIncrementBy opts isInit old = .ok v) :
    (∃ w, .increment w ∈ options ∧ w ≠ 0 ∧ v = w) ∨
      v = if isInit then 1 else old.incrementBy := by
  unfold newIncrementBy at h
  split at h
  · rename_i w hw
    split at h
    · cases h
    · rename_i hZero
      cases h
      exact .inl ⟨v, hFrom.increment v hw, hZero, rfl⟩
  · cases h
    exact .inr rfl

theorem newCacheValue_eq_ok {v : Int} (h : newCacheValue opts isInit old = .ok v) :
    0 < v ∨ v = if isInit then 1 else old.cacheValue := by
  unfold newCacheValue at h
  split at h
  · split at h
    · cases h
    · cases h
      exact .inl (by omega)
  · cases h
    exact .inr rfl

theorem newState_cases (isInit : Bool) (startValue : Int) (old : FormPgSequence)
    (hFrom : Collected options opts) :
    ((isInit ∨ restarts options) ∧
      (newState opts isInit startValue old).2 = (false, 1)) ∨
    (isInit = false ∧
      newState opts isInit startValue old = (old.lastValue, old.isCalled, old.logCnt)) := by
  unfold newState
  split
  · rename_i v hv
    exact .inl ⟨.inr (List.any_eq_true.mpr ⟨_, hFrom.restart v hv, rfl⟩), rfl⟩
  · cases isInit with
    | true => exact .inl ⟨.inl rfl, rfl⟩
    | false => exact .inr ⟨rfl, rfl⟩

theorem accepted_of_initParams
    (h : initParams options isInit old = .ok new) : Accepted options isInit old new := by
  obtain ⟨opts, hOpts, h⟩ := bind_eq_ok.mp h
  have hFrom : Collected options opts := collected_of_foldlM (fun o ho => ho)
    ⟨by simp, by simp, by simp⟩ hOpts
  obtain ⟨incrementBy, hInc, h⟩ := bind_eq_ok.mp h
  obtain ⟨-, -, h⟩ := bind_eq_ok.mp h
  obtain ⟨-, -, h⟩ := bind_eq_ok.mp h
  obtain ⟨-, -, h⟩ := bind_eq_ok.mp h
  obtain ⟨_, hLower, h⟩ := bind_eq_ok.mp h
  obtain ⟨_, hUpper, h⟩ := bind_eq_ok.mp h
  obtain ⟨cacheValue, hCache, h⟩ := bind_eq_ok.mp h
  cases h
  exact {
    increment := newIncrementBy_eq_ok hFrom hInc
    cycled := by
      cases hCycle : opts.isCycled with
      | none => exact .inr rfl
      | some v => exact .inl (hFrom.cycle v hCycle)
    state := by
      rcases newState_cases isInit _ old hFrom with ⟨hInit, hState⟩ | ⟨hInit, hState⟩
      · exact .inl ⟨hInit, congrArg Prod.fst hState, congrArg Prod.snd hState⟩
      · exact .inr ⟨hInit, congrArg Prod.fst hState, congrArg (fun t => t.2.1) hState,
          congrArg (fun t => t.2.2) hState⟩
    lower := Int.not_lt.mp (ereportIf_eq_ok hLower)
    upper := Int.not_lt.mp (ereportIf_eq_ok hUpper)
    cache := newCacheValue_eq_ok hCache }

/-- What CREATE SEQUENCE builds, and what ALTER SEQUENCE makes of a valid tuple, is valid. -/
theorem valid_of_accepted (h : Accepted options isInit old new)
    (hOld : isInit = false → Valid old) (hCycle : .cycle true ∉ options) : Valid new where
  increment := by
    rcases h.increment with ⟨v, -, hv, hNew⟩ | hNew
    · rwa [hNew]
    · rw [hNew]
      cases isInit with
      | true => simp
      | false => exact (hOld rfl).increment
  cache := by
    rcases h.cache with hPos | hNew
    · exact hPos
    · rw [hNew]
      cases isInit with
      | true => simp
      | false => exact (hOld rfl).cache
  log := by
    rcases h.state with ⟨-, hCalled, hLog⟩ | ⟨hInit, -, hCalled, hLog⟩
    · simp [uncalled, hCalled, hLog]
    · have hOldLog := (hOld hInit).log
      simpa [uncalled, hCalled, hLog] using hOldLog
  lower := h.lower
  upper := h.upper
  cycled := by
    rcases h.cycled with hMem | hNew
    · cases hNew : new.isCycled with
      | true => exact absurd (hNew ▸ hMem) hCycle
      | false => rfl
    · rw [hNew]
      cases isInit with
      | true => rfl
      | false => exact (hOld rfl).cycled

/-! ## The fetch -/

/-- What a fetch of `fetch` values, `m` of which it made and `c` of those for the session's cache,
makes of the loop's variables. -/
structure Fetched (seq : FormPgSequence) (f g : Fetch) (c m : Nat) : Prop where
  next : g.next = f.next + m * seq.incrementBy
  last_kept : c = 0 → g.last = f.last
  last_new : 0 < c → g.last = f.next + c * seq.incrementBy
  rescnt : g.rescnt = f.rescnt + c
  log : g.log = f.log - c
  cached_le : c ≤ m
  full : seq.cacheValue ≤ f.rescnt → c = 0
  room : g.rescnt < seq.cacheValue → c = m
  result_kept : 0 < f.rescnt → g.result = f.result
  result_new : f.rescnt = 0 → 0 < c → g.result = f.next + seq.incrementBy
  lower : seq.minValue ≤ f.next → seq.minValue ≤ g.next
  upper : f.next ≤ seq.maxValue → g.next ≤ seq.maxValue

theorem Fetched.refl (seq : FormPgSequence) (f : Fetch) : Fetched seq f f 0 0 := by
  constructor <;> simp

/-- One more value in front, for the cache while that has room. -/
theorem Fetched.cons {f g : Fetch} {c m : Nat}
    (h : Fetched seq (f.take seq.cacheValue (f.next + seq.incrementBy)) g c m)
    (hLower : seq.minValue ≤ f.next → seq.minValue ≤ f.next + seq.incrementBy)
    (hUpper : f.next ≤ seq.maxValue → f.next + seq.incrementBy ≤ seq.maxValue) :
    Fetched seq f g (if f.rescnt < seq.cacheValue then c + 1 else c) (m + 1) := by
  have hMul : ∀ n : Nat, f.next + seq.incrementBy + n * seq.incrementBy =
      f.next + ((n + 1 : Nat) : Int) * seq.incrementBy := by
    intro n
    push_cast
    ring
  by_cases hRoom : f.rescnt < seq.cacheValue
  · simp only [Fetch.take, if_pos hRoom] at h ⊢
    exact {
      next := h.next.trans (hMul m)
      last_kept := fun h0 => absurd h0 (Nat.succ_ne_zero c)
      last_new := by
        intro _
        rcases Nat.eq_zero_or_pos c with hc | hc
        · rw [h.last_kept hc, hc]
          simp
        · exact (h.last_new hc).trans (hMul c)
      rescnt := by
        have hStep : g.rescnt = f.rescnt + 1 + c := h.rescnt
        omega
      log := by
        have hStep : g.log = f.log - 1 - c := h.log
        omega
      cached_le := Nat.succ_le_succ h.cached_le
      full := by omega
      room := fun hLess => congrArg Nat.succ (h.room hLess)
      result_kept := by
        intro hPos
        rw [h.result_kept (by simp only; omega), if_neg (by omega)]
      result_new := by
        intro hZero _
        rw [h.result_kept (by simp only; omega), if_pos (by omega)]
      lower := fun hf => h.lower (hLower hf)
      upper := fun hf => h.upper (hUpper hf) }
  · simp only [Fetch.take, if_neg hRoom] at h ⊢
    have hNone : c = 0 := h.full (Int.not_lt.mp hRoom)
    exact { h with
      next := h.next.trans (hMul m)
      last_new := by omega
      cached_le := Nat.le_succ_of_le h.cached_le
      room := by
        have hSame : g.rescnt = f.rescnt + c := h.rescnt
        omega
      result_new := by omega
      lower := fun hf => h.lower (hLower hf)
      upper := fun hf => h.upper (hUpper hf) }

/-- The loop takes values while the bound allows. It fails only when it can take none. -/
theorem fetched_of_fetchLoop (hValid : Valid seq) (fetch : Nat) :
    ∀ {f g : Fetch} {left : Nat}, 0 ≤ f.rescnt → fetchLoop seq fetch f = .ok (g, left) →
      ∃ c m, left + m = fetch ∧ Fetched seq f g c m ∧ (f.rescnt = 0 → 0 < fetch → 0 < c) := by
  induction fetch with
  | zero =>
    intro f g left hRescnt h
    cases h
    exact ⟨0, 0, rfl, .refl seq f, fun _ h0 => absurd h0 (Nat.lt_irrefl 0)⟩
  | succ fetch ih =>
    intro f g left hRescnt h
    -- the two ways on: to stop at the bound, or to take the next value
    have hStop : 0 < f.rescnt → (Except.ok (f, fetch + 1) : Except SeqError (Fetch × Nat)) =
        .ok (g, left) → ∃ c m, left + m = fetch + 1 ∧ Fetched seq f g c m ∧
          (f.rescnt = 0 → 0 < fetch + 1 → 0 < c) := by
      intro hPos hEq
      cases hEq
      exact ⟨0, 0, rfl, .refl seq f, fun h0 => absurd h0 (by omega)⟩
    have hTake : (seq.minValue ≤ f.next → seq.minValue ≤ f.next + seq.incrementBy) →
        (f.next ≤ seq.maxValue → f.next + seq.incrementBy ≤ seq.maxValue) →
        fetchLoop seq fetch (f.take seq.cacheValue (f.next + seq.incrementBy)) = .ok (g, left) →
        ∃ c m, left + m = fetch + 1 ∧ Fetched seq f g c m ∧
          (f.rescnt = 0 → 0 < fetch + 1 → 0 < c) := by
      intro hLower hUpper hLoop
      have hNext : 0 ≤ (f.take seq.cacheValue (f.next + seq.incrementBy)).rescnt := by
        unfold Fetch.take
        split <;> simp only <;> omega
      obtain ⟨c, m, hLeft, hFetched, -⟩ := ih hNext hLoop
      refine ⟨_, m + 1, by omega, hFetched.cons hLower hUpper, ?_⟩
      intro hZero _
      rw [if_pos (by have := hValid.cache; omega)]
      exact Nat.succ_pos c
    unfold fetchLoop at h
    by_cases hUp : seq.incrementBy > 0
    · rw [if_pos hUp] at h
      split at h
      · split at h
        · exact hStop (by assumption) h
        · simp [hValid.cycled] at h
      · exact hTake (by omega) (by omega) h
    · rw [if_neg hUp] at h
      split at h
      · split at h
        · exact hStop (by assumption) h
        · simp [hValid.cycled] at h
      · exact hTake (by omega) (by omega) h

/-- What a call that reaches the page does: `c` values past the last one go to the session, the first
of them or the last one itself is returned, and `m` are logged, or fewer remain logged than before. -/
structure Served (seq : FormPgSequence) (forced : Bool) (r : Nextval) (c m : Nat) : Prop where
  result : r.result = seq.lastValue + (1 - uncalled seq) * seq.incrementBy
  last : r.last = seq.lastValue + c * seq.incrementBy
  some_value : 1 ≤ c + uncalled seq
  cached_le : c ≤ m
  log_nonneg : 0 ≤ r.log
  logged : forced = true → r.log = m - c ∧ r.logged =
    some { seq with lastValue := seq.lastValue + m * seq.incrementBy, isCalled := true, logCnt := 0 }
  unlogged : forced = false → r.log ≤ seq.logCnt - uncalled seq - c ∧ r.logged = none
  lower : seq.minValue ≤ seq.lastValue + m * seq.incrementBy
  upper : seq.lastValue + m * seq.incrementBy ≤ seq.maxValue

theorem served_of_nextvalFetch (hValid : Valid seq) {lsn redoptr : Nat} {r : Nextval}
    (h : nextvalFetch seq lsn redoptr = .ok r) :
    ∃ c m, Served seq (logit seq lsn redoptr) r c m := by
  obtain ⟨⟨f, left⟩, hLoop, hr⟩ := bind_eq_ok.mp h
  cases hr
  have hUncalled := uncalled_cases seq
  have hCache := hValid.cache
  obtain ⟨c, m, hLeft, hFetched, hSome⟩ := fetched_of_fetchLoop hValid _
    (by show 0 ≤ uncalled seq; omega) hLoop
  have hCachedLe := hFetched.cached_le
  have hValue : 1 ≤ c + uncalled seq := by
    rcases hUncalled with hZero | hOne
    · have hPos : 0 < c := hSome hZero (by split at hLeft <;> split <;> omega)
      omega
    · omega
  have hLogged : logit seq lsn redoptr → f.log - left = m - c := by
    intro hForced
    have hCount := hFetched.log
    rw [hForced, if_pos rfl] at hLeft
    simp only [hForced, if_true] at hCount
    omega
  have hUnlogged : logit seq lsn redoptr = false → 0 ≤ f.log - left ∧
      f.log - left ≤ seq.logCnt - uncalled seq - c := by
    intro hForced
    have hCount := hFetched.log
    have hEnough := (Bool.or_eq_false_iff.mp hForced).1
    rw [decide_eq_false_iff_not] at hEnough
    simp only [hForced, Bool.false_eq_true, if_false] at hCount hLeft
    omega
  refine ⟨c, m, ?_⟩
  exact {
    result := by
      rcases hUncalled with hZero | hOne
      · have hNew : f.result = seq.lastValue + seq.incrementBy :=
          hFetched.result_new hZero (by omega)
        rw [hNew, hZero]
        ring
      · have hKept : f.result = seq.lastValue :=
          hFetched.result_kept (by show 0 < uncalled seq; omega)
        rw [hKept, hOne]
        ring
    last := by
      rcases Nat.eq_zero_or_pos c with hc | hc
      · have hKept : f.last = seq.lastValue := hFetched.last_kept hc
        rw [hKept, hc]
        simp
      · exact hFetched.last_new hc
    some_value := hValue
    cached_le := hCachedLe
    log_nonneg := by
      cases hForced : logit seq lsn redoptr with
      | true =>
        have hEq := hLogged hForced
        show 0 ≤ f.log - left
        omega
      | false => exact (hUnlogged hForced).1
    logged := by
      intro hForced
      refine ⟨hLogged hForced, ?_⟩
      simp [hForced, hFetched.next]
    unlogged := by
      intro hForced
      refine ⟨(hUnlogged hForced).2, ?_⟩
      simp [hForced]
    lower := by
      rw [← hFetched.next]
      exact hFetched.lower hValid.lower
    upper := by
      rw [← hFetched.next]
      exact hFetched.upper hValid.upper }

end PgTuning.Commands
