import PgTuning.Lib.Redo
import PgTuning.Lib.Run

/-!
# Sequences

`commands/sequence.c`: the one tuple of a sequence, the commands that read and rewrite it, what they
write to the log, and what a crash leaves of it. A sequence is its page in memory, the image of that
page on disk and the log; a backend that has used it keeps some numbers of its own.

The numbers are those of the source's 64-bit type without its bounds: every sum of values that
passed the checks is in range, and the one count that can wrap, `cache + SEQ_LOG_VALS`, is only ever
counted down and subtracted from itself.
-/

namespace PgTuning.Commands

/-- How many values are logged ahead, to be handed out without a further record. -/
def seqLogVals : Nat := 32

def seqMaxValue : Int := 9223372036854775807

def seqMinValue : Int := -9223372036854775807

/-- `FormData_pg_sequence`: the sequence's tuple. -/
structure FormPgSequence where
  lastValue : Int
  startValue : Int
  incrementBy : Int
  maxValue : Int
  minValue : Int
  cacheValue : Int
  logCnt : Int
  isCycled : Bool
  isCalled : Bool
  deriving DecidableEq, Repr, Inhabited

inductive SeqError
  | conflictingOptions
  | incrementZero
  | minNotBelowMax (minValue maxValue : Int)
  | startBelowMin (startValue minValue : Int)
  | startAboveMax (startValue maxValue : Int)
  | restartBelowMin (lastValue minValue : Int)
  | restartAboveMax (lastValue maxValue : Int)
  | cacheNotPositive (cacheValue : Int)
  | reachedMaximum (maxValue : Int)
  | reachedMinimum (minValue : Int)
  | setvalOutOfBounds (next minValue maxValue : Int)
  deriving DecidableEq, Repr

/-! ## Options of CREATE and ALTER SEQUENCE -/

/-- One option as the grammar builds it. `NO MAXVALUE`, `NO MINVALUE` and a bare `RESTART` have no
argument. -/
inductive SeqOption
  | increment (value : Int)
  | start (value : Int)
  | restart (value : Option Int)
  | maxvalue (value : Option Int)
  | minvalue (value : Option Int)
  | cache (value : Int)
  | cycle (value : Bool)
  | ownedBy (names : List String)
  deriving DecidableEq, Repr

/-- The options found in the list, each at most once. -/
structure SeqOptions where
  incrementBy : Option Int := none
  startValue : Option Int := none
  restartValue : Option (Option Int) := none
  maxValue : Option (Option Int) := none
  minValue : Option (Option Int) := none
  cacheValue : Option Int := none
  isCycled : Option Bool := none
  ownedBy : Option (List String) := none
  deriving DecidableEq, Repr

/-- Keep an option's argument unless it was given before. -/
def takeOption {α : Type} (found : Option α) (value : α) : Except SeqError (Option α) :=
  if found.isSome then .error .conflictingOptions else .ok (some value)

variable (opts : SeqOptions)

def SeqOptions.add : SeqOption → Except SeqError SeqOptions
  | .increment v => return { opts with incrementBy := ← takeOption opts.incrementBy v }
  | .start v => return { opts with startValue := ← takeOption opts.startValue v }
  | .restart v => return { opts with restartValue := ← takeOption opts.restartValue v }
  | .maxvalue v => return { opts with maxValue := ← takeOption opts.maxValue v }
  | .minvalue v => return { opts with minValue := ← takeOption opts.minValue v }
  | .cache v => return { opts with cacheValue := ← takeOption opts.cacheValue v }
  | .cycle v => return { opts with isCycled := ← takeOption opts.isCycled v }
  | .ownedBy v => return { opts with ownedBy := ← takeOption opts.ownedBy v }

def ereportIf (bad : Prop) [Decidable bad] (e : SeqError) : Except SeqError Unit :=
  if bad then .error e else .ok ()

def newIncrementBy (isInit : Bool) (old : FormPgSequence) : Except SeqError Int :=
  match opts.incrementBy with
  | some value => if value = 0 then .error .incrementZero else .ok value
  | none => .ok (if isInit then 1 else old.incrementBy)

/-- RESTART [WITH]: the last value, whether it was called, and the count of values logged ahead. -/
def newState (isInit : Bool) (startValue : Int) (old : FormPgSequence) : Int × Bool × Int :=
  match opts.restartValue with
  | some value => (value.getD startValue, false, 1)
  | none => if isInit then (startValue, false, 1) else (old.lastValue, old.isCalled, old.logCnt)

def newCacheValue (isInit : Bool) (old : FormPgSequence) : Except SeqError Int :=
  match opts.cacheValue with
  | some value => if value ≤ 0 then .error (.cacheNotPositive value) else .ok value
  | none => .ok (if isInit then 1 else old.cacheValue)

variable (options : List SeqOption)

/-- `init_params`: the tuple `old` with the options put in, or, on creation (`isInit`), with the
defaults for those not given. -/
def initParams (isInit : Bool) (old : FormPgSequence) : Except SeqError FormPgSequence := do
  let opts ← options.foldlM SeqOptions.add {}
  let incrementBy ← newIncrementBy opts isInit old
  let isCycled := opts.isCycled.getD (if isInit then false else old.isCycled)
  let maxDefault := if incrementBy > 0 then seqMaxValue else -1
  let maxValue := match opts.maxValue with
    | some value => value.getD maxDefault
    | none => if isInit then maxDefault else old.maxValue
  let minDefault := if incrementBy > 0 then 1 else seqMinValue
  let minValue := match opts.minValue with
    | some value => value.getD minDefault
    | none => if isInit then minDefault else old.minValue
  ereportIf (minValue ≥ maxValue) (.minNotBelowMax minValue maxValue)
  let startValue := opts.startValue.getD <|
    if isInit then (if incrementBy > 0 then minValue else maxValue) else old.startValue
  ereportIf (startValue < minValue) (.startBelowMin startValue minValue)
  ereportIf (startValue > maxValue) (.startAboveMax startValue maxValue)
  let state := newState opts isInit startValue old
  ereportIf (state.1 < minValue) (.restartBelowMin state.1 minValue)
  ereportIf (state.1 > maxValue) (.restartAboveMax state.1 maxValue)
  let cacheValue ← newCacheValue opts isInit old
  return {
    lastValue := state.1
    startValue, incrementBy, maxValue, minValue, cacheValue
    logCnt := state.2.2
    isCycled
    isCalled := state.2.1 }

/-! ## What a call of nextval takes -/

/-- The variables of the loop of `nextval_internal`. -/
structure Fetch where
  next : Int
  last : Int
  result : Int
  rescnt : Int
  log : Int
  deriving DecidableEq, Repr

/-- Take the value `next`: for the session's cache while that has room, else for the log only. -/
def Fetch.take (cache next : Int) (f : Fetch) : Fetch :=
  if f.rescnt < cache then
    { next
      last := next
      result := if f.rescnt + 1 = 1 then next else f.result
      rescnt := f.rescnt + 1
      log := f.log - 1 }
  else
    { f with next }

/-- `while (fetch)`: the variables at its end, with what is left of `fetch`. -/
def fetchLoop (seq : FormPgSequence) : Nat → Fetch → Except SeqError (Fetch × Nat)
  | 0, f => .ok (f, 0)
  | fetch + 1, f =>
    if seq.incrementBy > 0 then
      if (seq.maxValue ≥ 0 ∧ f.next > seq.maxValue - seq.incrementBy) ∨
          (seq.maxValue < 0 ∧ f.next + seq.incrementBy > seq.maxValue) then
        if f.rescnt > 0 then .ok (f, fetch + 1)
        else if !seq.isCycled then .error (.reachedMaximum seq.maxValue)
        else fetchLoop seq fetch (f.take seq.cacheValue seq.minValue)
      else fetchLoop seq fetch (f.take seq.cacheValue (f.next + seq.incrementBy))
    else
      if (seq.minValue < 0 ∧ f.next < seq.minValue - seq.incrementBy) ∨
          (seq.minValue ≥ 0 ∧ f.next + seq.incrementBy < seq.minValue) then
        if f.rescnt > 0 then .ok (f, fetch + 1)
        else if !seq.isCycled then .error (.reachedMinimum seq.minValue)
        else fetchLoop seq fetch (f.take seq.cacheValue seq.maxValue)
      else fetchLoop seq fetch (f.take seq.cacheValue (f.next + seq.incrementBy))

/-- What a call that reaches the page gives: the value returned, the last one for the session's
cache, the new `log_cnt`, and the tuple it logs, if it does. -/
structure Nextval where
  result : Int
  last : Int
  log : Int
  logged : Option FormPgSequence
  deriving DecidableEq, Repr

/-- The value `last_value` itself is still to be handed out when it was not called. -/
def uncalled (seq : FormPgSequence) : Int := if seq.isCalled then 0 else 1

/-- Whether a call that reaches the page writes a record: the values logged ahead do not suffice, or
the page's last record is older than the checkpoint. -/
def logit (seq : FormPgSequence) (lsn redoptr : Nat) : Bool :=
  seq.logCnt - uncalled seq < seq.cacheValue - uncalled seq || lsn ≤ redoptr

/-- `nextval_internal` once it has read the tuple. -/
def nextvalFetch (seq : FormPgSequence) (lsn redoptr : Nat) : Except SeqError Nextval := do
  let rescnt := uncalled seq
  let wanted := seq.cacheValue - uncalled seq
  let forced := logit seq lsn redoptr
  let fetch := if forced then wanted + seqLogVals else wanted
  let log := if forced then wanted + seqLogVals else seq.logCnt - uncalled seq
  let (f, left) ← fetchLoop seq fetch.toNat
    { next := seq.lastValue, last := seq.lastValue, result := seq.lastValue, rescnt, log }
  return {
    result := f.result
    last := f.last
    log := f.log - left
    logged := if forced then some { seq with lastValue := f.next, isCalled := true, logCnt := 0 }
      else none }

/-! ## The sequence, its log and its users -/

/-- The page: its tuple, and the end of the last log record that changed it. -/
structure SeqPage where
  seq : FormPgSequence
  lsn : Nat
  deriving DecidableEq, Repr

/-- `seq_redo` builds the page anew from the record. -/
def seqRedo (lsn : Nat) (record : FormPgSequence) : SeqPage := ⟨record, lsn⟩

/-- `SeqTableData`: what a session remembers. The numbers after `last` up to `cached` are its own. -/
structure SeqTable where
  lastValid : Bool := false
  last : Int := 0
  cached : Int := 0
  increment : Int := 0
  deriving DecidableEq, Repr

/-- A sequence and all that decides what becomes of it. -/
structure SeqState where
  /-- The page in memory, once the sequence is created. -/
  page : Option SeqPage
  /-- Its image on disk, once it was written there. -/
  disk : Option SeqPage
  /-- The log: the sequence's records, among those of others. -/
  wal : List (Option FormPgSequence)
  /-- Where a replay would start after the checkpoint that began last. -/
  redoRecPtr : Nat
  /-- The checkpoint that is running, if one is: whether it has written the page out. -/
  checkpoint : Option Bool
  /-- Where a replay starts: the redo point of the last checkpoint that was completed. -/
  controlRedo : Nat
  sessions : Nat → SeqTable
  /-- What nextval returned since the last crash and the last setval, restart or creation. -/
  returned : List Int
  /-- What it returned before the last crash, since the last setval, restart or creation. -/
  beforeCrash : List Int

/-- Before anything: no sequence, and an empty log. -/
def SeqState.empty : SeqState where
  page := none
  disk := none
  wal := []
  redoRecPtr := 0
  checkpoint := none
  controlRedo := 0
  sessions := fun _ => {}
  returned := []
  beforeCrash := []

variable (s : SeqState)

def SeqState.setSession (i : Nat) (elm : SeqTable) : SeqState :=
  { s with sessions := Function.update s.sessions i elm }

/-- `read_info` keeps a copy of the increment. -/
def readInfo (elm : SeqTable) (seq : FormPgSequence) : SeqTable :=
  { elm with increment := seq.incrementBy }

/-- Log `record`, and leave `seq` on the page. -/
def SeqState.logPage (record seq : FormPgSequence) : SeqState :=
  { s with
    wal := s.wal ++ [some record]
    page := some ⟨seq, s.wal.length + 1⟩ }

def SeqState.forgetReturned : SeqState :=
  { s with returned := [], beforeCrash := [] }

/-- `DefineSequence`, with `fill_seq_with_data`: the record is ahead by the first nextval call. -/
def defineSequence (s : SeqState) : SeqState :=
  match s.page with
  | some _ => s
  | none =>
    match initParams options true default with
    | .error _ => s
    | .ok new => (s.logPage { new with isCalled := true, logCnt := 0 } new).forgetReturned

def restarts : Bool :=
  options.any fun
    | .restart _ => true
    | _ => false

/-- `AlterSequence` logs the tuple as it leaves it. -/
def alterSequence (i : Nat) (options : List SeqOption) (s : SeqState) : SeqState :=
  match s.page with
  | none => s
  | some page =>
    let elm := readInfo (s.sessions i) page.seq
    match initParams options false page.seq with
    | .error _ => s.setSession i elm
    | .ok new =>
      let altered := (s.setSession i { elm with cached := elm.last }).logPage new new
      if restarts options then altered.forgetReturned else altered

def doSetval (i : Nat) (next : Int) (iscalled : Bool) (s : SeqState) : SeqState :=
  match s.page with
  | none => s
  | some page =>
    let elm := readInfo (s.sessions i) page.seq
    if next < page.seq.minValue ∨ next > page.seq.maxValue then
      s.setSession i elm
    else
      let elm := if iscalled then { elm with last := next, lastValid := true } else elm
      ((s.setSession i { elm with cached := elm.last }).logPage
        { page.seq with lastValue := next, isCalled := true, logCnt := 0 }
        { page.seq with
          lastValue := next
          isCalled := iscalled
          logCnt := if iscalled then 0 else 1 }).forgetReturned

/-- A checkpoint begins by fixing its redo point. -/
def beginCheckpoint : SeqState :=
  match s.checkpoint with
  | some _ => s
  | none => { s with redoRecPtr := s.wal.length, checkpoint := some false }

/-- The page is written out, by a checkpoint or for its buffer. -/
def flushPage : SeqState :=
  { s with disk := s.page, checkpoint := s.checkpoint.map fun _ => true }

def endCheckpoint : SeqState :=
  match s.checkpoint with
  | some true => { s with controlRedo := s.redoRecPtr, checkpoint := none }
  | _ => s

/-- `nextval_internal`. The page is locked from when it is read, but a checkpoint may begin between
the look at the redo point and the record. -/
def nextvalInternal (i : Nat) (checkpointBegins : Bool) (s : SeqState) : SeqState :=
  match s.page with
  | none => s
  | some page =>
    let elm := s.sessions i
    if elm.last ≠ elm.cached then
      let elm := { elm with last := elm.last + elm.increment }
      { s.setSession i elm with returned := elm.last :: s.returned }
    else
      let elm := readInfo elm page.seq
      match nextvalFetch page.seq page.lsn s.redoRecPtr with
      | .error _ => s.setSession i elm
      | .ok r =>
        let s := if checkpointBegins then beginCheckpoint s else s
        let s := s.setSession i { elm with last := r.result, cached := r.last, lastValid := true }
        let s := { s with returned := r.result :: s.returned }
        let seq := { page.seq with lastValue := r.last, isCalled := true, logCnt := r.log }
        match r.logged with
        | some record => s.logPage record seq
        | none => { s with page := some ⟨seq, page.lsn⟩ }

/-- Memory is lost, and the log is replayed from the last completed checkpoint's redo point on. -/
def crash (s : SeqState) : SeqState :=
  { s with
    page := Lib.replay seqRedo s.controlRedo 0 s.wal s.disk
    redoRecPtr := s.controlRedo
    checkpoint := none
    sessions := fun _ => {}
    returned := []
    beforeCrash := s.returned ++ s.beforeCrash }

inductive SeqEvent
  | create (options : List SeqOption)
  | alter (session : Nat) (options : List SeqOption)
  | setval (session : Nat) (next : Int) (iscalled : Bool)
  | nextval (session : Nat) (checkpointBegins : Bool)
  | otherRecord
  | beginCheckpoint
  | flush
  | endCheckpoint
  | crash
  deriving DecidableEq, Repr

def seqStep : SeqEvent → SeqState
  | .create options => defineSequence options s
  | .alter i options => alterSequence i options s
  | .setval i next iscalled => doSetval i next iscalled s
  | .nextval i checkpointBegins => nextvalInternal i checkpointBegins s
  | .otherRecord => { s with wal := s.wal ++ [none] }
  | .beginCheckpoint => PgTuning.Commands.beginCheckpoint s
  | .flush => flushPage s
  | .endCheckpoint => PgTuning.Commands.endCheckpoint s
  | .crash => PgTuning.Commands.crash s

end PgTuning.Commands
