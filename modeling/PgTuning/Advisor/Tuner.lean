import Mathlib.Algebra.Order.Ring.Rat
import PgTuning.Advisor.Connection
import PgTuning.Lib.FirstKept

/-!
# One index tuner: `analyze` and `feedback`

An `IndexTuner` keeps a work function over the configurations of its own part of the candidates:
`curCand` lists the configurations, `w` their work-function values, `sugg` the configuration
suggested. Both talk to the database only through `whatIf` and `changeConfig`, so they are written
over an arbitrary `Prober`; `connectionProber` is the one the advisor runs with.

Costs are exact rationals. A `DBTime` is a mutable cell; `w` is modelled by the values of its cells,
which are never shared with a list that outlives the call. Inside `analyze` the list `wdash` is a
*shallow* copy of `w`, so writing `wdash.get(i)` writes `w.get(i)`.
-/

namespace PgTuning.Advisor

open PgTuning.Lib PgTuning.Lib.Attempt List

/-- What a tuner and the master need from the database connection. -/
structure Prober (σ : Type) where
  curHypConfig : σ → List Index
  whatIf : JString → List Index → Attempt JavaException σ (Option ℚ)
  changeConfig : List Index → List Index → Attempt JavaException σ ℚ

/-- The prober of the advisor: the operations on its connection. -/
def connectionProber (server : Server) : Prober Connection where
  curHypConfig := Connection.curHypConfig
  whatIf := fun query conf => whatIf server query (.list conf)
  changeConfig := changeConfig server

/-- The fields of an `IndexTuner`, all `null` after construction. -/
structure IndexTuner where
  allCand : Option (List Index)
  curCand : Option (List (List Index))
  w : Option (List ℚ)
  sugg : Option (List Index)
deriving DecidableEq

def IndexTuner.new : IndexTuner := ⟨none, none, none, none⟩

structure TunerState (σ : Type) where
  tuner : IndexTuner
  con : σ

abbrev TunerM (σ α : Type) : Type := Attempt JavaException (TunerState σ) α

section Cells

variable {σ α : Type}

def onCon (m : Attempt JavaException σ α) : TunerM σ α :=
  zoom TunerState.con (fun s con => { s with con := con }) m

def getW (i : Nat) : TunerM σ ℚ := do
  let s ← get
  let w ← nonNull s.tuner.w
  elemAt w i

def setW (i : Nat) (x : ℚ) : TunerM σ Unit :=
  modify fun s => { s with tuner.w := s.tuner.w.map (·.set i x) }

end Cells

/-! ## `analyze` -/

section Analyze

variable {σ : Type} (p : Prober σ)

/-- The first loop: the query's cost under each configuration. A configuration
whose probe throws is skipped, and the later costs move up one place. -/
def explainAll (query : JString) (curCand : List (List Index)) :
    TunerM σ (List (Option ℚ)) :=
  curCand.foldlM (fun execTime conf =>
    tryCatch (do return execTime ++ [← onCon (p.whatIf query conf)])
      (fun _ => pure execTime)) []

/-- One pass of the second loop: the query's cost is added to the entry. -/
def chargeEntry (execTime : List (Option ℚ)) (i : Nat) : TunerM σ Unit := do
  let wi ← getW i
  let t ← elemAt execTime i
  let t ← unbox t
  setW i (wi + t)

variable (curCand : List (List Index))

/-- One pass of the third loop. The result is written through `wdash`, that is,
into the cell of `w` the next passes read. -/
def relaxEntry (n i : Nat) : TunerM σ Unit := do
  let wi ← getW i
  let mini ← (range n).foldlM (fun mini j => do
    let wj ← getW j
    let si ← elemAt curCand i
    let sj ← elemAt curCand j
    let change ← onCon (p.changeConfig si sj)
    return min mini (wj + change)) wi
  setW i mini

/-- One pass of the fourth loop: the score of configuration `i`. -/
def scoreEntry (execTime : List (Option ℚ)) (i : Nat) : TunerM σ (List (Option ℚ)) := do
  let si ← elemAt curCand i
  let s ← get
  let sugg ← nonNull s.tuner.sugg
  let changeTime ← onCon (p.changeConfig si sugg)
  let old ← elemAt execTime i
  let _ ← unbox old
  let wi ← getW i
  setW i wi
  return execTime.set i (some (wi + changeTime))

def bestScore (execTime : List (Option ℚ)) (n : Nat) : TunerM σ ℚ := do
  let first ← elemAt execTime 0
  let first ← unbox first
  (range n).foldlM (fun mini i => do
    let t ← elemAt execTime i
    let t ← unbox t
    return min mini t) first

/-- One pass of the last loop: a configuration with the least score becomes the
suggestion, the later ones overriding the earlier. -/
def suggestEntry (execTime : List (Option ℚ)) (mini : ℚ) (i : Nat) : TunerM σ Unit := do
  let t ← elemAt execTime i
  let t ← unbox t
  if t = mini then do
    let conf ← elemAt curCand i
    modify fun s => { s with tuner.sugg := some conf }
  else pure ()

/-- `analyze`. The list `pres` of the source is only written, and is left
out. -/
def analyze (query : JString) : TunerM σ Unit := do
  let s ← get
  let curCand ← nonNull s.tuner.curCand
  let execTime ← explainAll p query curCand
  let w ← nonNull s.tuner.w
  forM (range w.length) (chargeEntry execTime)
  forM (range w.length) (relaxEntry p curCand w.length)
  let execTime ← (range w.length).foldlM (scoreEntry p curCand) execTime
  let mini ← bestScore execTime w.length
  forM (range w.length) (suggestEntry curCand execTime mini)

end Analyze

/-! ## `feedback` -/

variable {σ : Type} (p : Prober σ)

/-- `new TreeSet<Index>(xs)`: of several members that compare equal the first
one stays. -/
def treeSet (xs : List Index) : Std.TreeSet Index Index.compareTo :=
  FirstKept.insertAll ∅ xs

variable (fPlus fMinus : List Index)

/-- One pass of the loop of `feedback`: `diff` is the cell `w.get(i)` itself. -/
def feedbackEntry (curCand : List (List Index))
    (sugg : List Index) (indexSugg i : Nat) : TunerM σ Unit := do
  let s ← elemAt curCand i
  let sCons := fPlus ++ s.filter fun ix =>
    !(fPlus.contains ix) && !((treeSet fMinus).contains ix)
  let there ← onCon (p.changeConfig s sCons)
  let back ← onCon (p.changeConfig sCons s)
  let minDiff := there + back
  let wi ← getW i
  let move ← onCon (p.changeConfig s sugg)
  setW i (wi + move)
  let diff ← getW i
  let ws ← getW indexSugg
  setW i (diff + ws)
  let diff ← getW i
  if diff < minDiff then do
    let wi ← getW i
    setW i (wi + minDiff - diff)
  else pure ()

/-- The loop of `feedback`, which makes no pass when `curCand.indexOf(sugg)` is
-1. `indexOf` compares the lists member by member by object identity. -/
def feedbackLoop (curCand : List (List Index)) (sugg : List Index) : TunerM σ Unit :=
  if sugg ∈ curCand then
    forM (range curCand.length)
      (feedbackEntry p fPlus fMinus curCand sugg (curCand.idxOf sugg))
  else pure ()

def feedback : TunerM σ Unit := do
  let s ← get
  let sugg ← nonNull s.tuner.sugg
  let newList := fPlus ++ sugg.filter fun ix => !((treeSet fMinus).contains ix)
  let curCand ← nonNull s.tuner.curCand
  feedbackLoop p fPlus fMinus curCand sugg
  modify fun s => { s with tuner.sugg := some newList }

end PgTuning.Advisor
