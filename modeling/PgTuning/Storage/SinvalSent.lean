import Mathlib.Tactic.SplitIfs
import PgTuning.Storage.Sinvaladt

/-!
# What the processes send

`SIInsertDataEntries` copies its messages in batches and gives up the write lock between two of
them. `History` records, beside the state, what every process has passed to it and who published
what. At every moment the messages a process has passed are those it has published and those that
the call it is in has still to publish, in this order.
-/

namespace PgTuning.Sinval

open List Function Prod

variable {Msg : Type}

/-- What the call of `SIInsertDataEntries` has not published yet. -/
def Pc.outstanding : Pc Msg → List Msg
  | .insertLock batch data => batch ++ data
  | .insertCheck batch data => batch ++ data
  | .insertWrite _ written batch data => written ++ batch ++ data
  | _ => []

/-- The messages that a step passes to `SIInsertDataEntries`. -/
def Sys.passedBy (s : Sys Msg) (a : Pid × Act Msg) : List Msg :=
  match a.2, s.pc a.1 with
  | .insert data, .ready => data
  | _, _ => []

/-- The state together with what has been sent in the run that led to it. -/
structure History (Msg : Type) where
  sys : Sys Msg
  /-- All that a process has passed to `SIInsertDataEntries`. -/
  passed : Pid → List Msg
  /-- The published messages, each with the process that published it. -/
  published : List (Pid × Msg)

namespace History

def start (maxBackends : Nat) (buffer : Nat → Msg) : History Msg where
  sys := Sys.start maxBackends buffer
  passed := fun _ => []
  published := []

/-- A step of the system, recorded. -/
def step (h : History Msg) (a : Pid × Act Msg) : History Msg where
  sys := h.sys.step a
  passed := update h.passed a.1 (h.passed a.1 ++ h.sys.passedBy a)
  published := h.published ++ ((h.sys.step a).log.drop h.sys.log.length).map (a.1, ·)

/-- What the process has published. -/
def sentBy (h : History Msg) (p : Pid) : List Msg :=
  (h.published.filter (·.1 = p)).map snd

end History

/-- Nothing is lost or added on the way to the log. -/
structure Accounted (h : History Msg) : Prop where
  log : h.published.map snd = h.sys.log
  /-- A process has published what it passed, in order, up to what the call it is in
  has still to publish. -/
  passed : ∀ p, h.sentBy p ++ (h.sys.pc p).outstanding = h.passed p

/-! ## One step -/

/-- Process `p` has gone from `s` to `t`; `new` is what it passed in this step. -/
structure Sends (s t : Sys Msg) (p : Pid) (new : List Msg) : Prop where
  others : ∀ q, q ≠ p → t.pc q = s.pc q
  publishes : ∃ done, t.log = s.log ++ done ∧
    done ++ (t.pc p).outstanding = (s.pc p).outstanding ++ new

section Steps

variable {s t : Sys Msg} {p : Pid} {new : List Msg}

theorem sends_move {pc' : Pc Msg} (hOut : pc'.outstanding = (s.pc p).outstanding ++ new)
    (hPc : t.pc = update s.pc p pc') (hLog : t.log = s.log) : Sends s t p new := by
  refine ⟨fun q hq => ?_, [], by rw [hLog, append_nil], ?_⟩
  · rw [hPc, update_of_ne hq]
  · rw [hPc, update_self]
    exact hOut

theorem sends_stay (hPc : t.pc = s.pc) (hLog : t.log = s.log) : Sends s t p [] :=
  sends_move (append_nil _).symm (hPc.trans (update_eq_self p s.pc).symm) hLog

theorem outstanding_nextBatch (data : List Msg) : (Sys.nextBatch data).outstanding = data := by
  cases data with
  | nil => rfl
  | cons m data => exact take_append_drop writeQuantum (m :: data)

theorem lockWrite_sends {pc' : Pc Msg} (hOut : pc'.outstanding = (s.pc p).outstanding) :
    Sends s (s.lockWrite p pc') p [] := by
  unfold Sys.lockWrite
  split
  · exact sends_move (hOut.trans (append_nil _).symm) rfl rfl
  · exact sends_stay rfl rfl

/-- A process that goes on publishes what is copied, at the end of a batch. -/
theorem go_sends (s : Sys Msg) (p : Pid) : Sends s (s.go p) p [] := by
  have hMove : ∀ {t : Sys Msg} {pc' : Pc Msg}, pc'.outstanding = (s.pc p).outstanding →
      t.pc = update s.pc p pc' → t.log = s.log → Sends s t p [] :=
    fun hOut => sends_move (hOut.trans (append_nil _).symm)
  unfold Sys.go
  cases hpc : s.pc p with
  | unregistered | ready => exact sends_stay rfl rfl
  | insertLock batch data => exact lockWrite_sends (by rw [hpc]; rfl)
  | insertCheck batch data =>
    unfold Sys.insertCheck
    dsimp only
    split_ifs
    · exact hMove (by rw [hpc]; rfl) rfl rfl
    · exact sends_stay rfl rfl
    · exact sends_stay rfl rfl
    · exact hMove (by rw [hpc]; rfl) rfl rfl
  | insertWrite max written batch data =>
    cases batch with
    | cons m batch => exact hMove (by rw [hpc]; simp [Pc.outstanding]) rfl rfl
    | nil =>
      refine ⟨fun q hq => update_of_ne hq _ _, written, rfl, ?_⟩
      show written ++ (update s.pc p (Sys.nextBatch data) p).outstanding = _
      rw [update_self, outstanding_nextBatch, hpc]
      simp [Pc.outstanding]
  | cleanupLock minFree => exact lockWrite_sends (by rw [hpc]; rfl)
  | cleanup minFree =>
    unfold Sys.cleanup
    split_ifs
    · exact hMove (by rw [hpc]; rfl) rfl rfl
    · exact sends_stay rfl rfl
  | getLock datasize | getFetch datasize => exact hMove (by rw [hpc]; rfl) rfl rfl
  | getTest datasize max =>
    unfold Sys.getTest
    split_ifs
    · exact hMove (by rw [hpc]; rfl) rfl rfl
    · exact hMove (by rw [hpc]; rfl) rfl rfl
  | getLoop datasize max data =>
    unfold Sys.getLoop
    dsimp only
    split
    · exact hMove (by rw [hpc]; rfl) rfl rfl
    · exact hMove (by rw [hpc]; rfl) rfl rfl

theorem step_sends (s : Sys Msg) (a : Pid × Act Msg) :
    Sends s (s.step a) a.1 (s.passedBy a) := by
  obtain ⟨p, act⟩ := a
  have hMove : ∀ {t : Sys Msg} {pc' : Pc Msg}, s.pc p = .ready → pc'.outstanding = [] →
      t.pc = update s.pc p pc' → t.log = s.log → Sends s t p [] :=
    fun hpc hOut => sends_move (by rw [hpc]; exact hOut)
  unfold Sys.step
  dsimp only
  split
  case h_1 sendOnly hpc =>
    split_ifs
    · unfold Sys.register
      split
      · exact sends_stay rfl rfl
      · exact sends_move (by rw [hpc]; rfl) rfl rfl
    · exact sends_stay rfl rfl
  case h_2 hpc =>
    split_ifs
    · exact hMove hpc rfl rfl rfl
    · exact sends_stay rfl rfl
  case h_3 data hpc =>
    have hNew : s.passedBy (p, .insert data) = data := by
      unfold Sys.passedBy
      rw [hpc]
    exact sends_move (by rw [outstanding_nextBatch, hpc, hNew]; rfl) rfl rfl
  case h_4 minFree hpc => exact hMove hpc rfl rfl rfl
  case h_5 datasize hpc =>
    split_ifs
    · exact sends_stay rfl rfl
    · exact hMove hpc rfl rfl rfl
  case h_6 => exact go_sends s p
  case h_7 act _ _ _ _ _ hInsert _ _ =>
    have hNew : s.passedBy (p, act) = [] := by
      unfold Sys.passedBy
      split
      case h_1 data hAct hpc => exact (hInsert data hAct hpc).elim
      case h_2 => rfl
    rw [hNew]
    exact sends_stay rfl rfl

end Steps

/-! ## Every run -/

theorem Accounted.step {h : History Msg} (hOld : Accounted h) (a : Pid × Act Msg) :
    Accounted (h.step a) := by
  obtain ⟨hOthers, done, hLog, hOut⟩ := step_sends h.sys a
  have hNew : (h.sys.step a).log.drop h.sys.log.length = done := by rw [hLog, drop_left]
  have hSent : ∀ p, (h.step a).sentBy p = h.sentBy p ++ if a.1 = p then done else [] := by
    intro p
    unfold History.sentBy History.step
    rw [hNew, filter_append]
    split_ifs with hp <;> simp [hp, filter_map, comp_def]
  refine ⟨?_, fun p => ?_⟩
  · show (h.published ++ _).map snd = (h.sys.step a).log
    rw [map_append, hOld.log, hLog]
    simp [comp_def]
  · rw [hSent]
    by_cases hp : a.1 = p
    · subst hp
      show (h.sentBy a.1 ++ if a.1 = a.1 then done else []) ++ ((h.sys.step a).pc a.1).outstanding =
        update h.passed a.1 _ a.1
      rw [if_pos rfl, update_self, append_assoc, hOut, ← append_assoc, hOld.passed]
    · show (h.sentBy p ++ if a.1 = p then done else []) ++ ((h.sys.step a).pc p).outstanding =
        update h.passed a.1 _ p
      rw [if_neg hp, append_nil, hOthers p (Ne.symm hp), update_of_ne (Ne.symm hp), hOld.passed]

end PgTuning.Sinval
