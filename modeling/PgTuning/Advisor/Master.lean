import PgTuning.Advisor.Partitioner

/-!
# The master

`Master` owns `k` tuners. Each new query makes it select candidates, partition them, hand one part
to each tuner (`deploy`), let the tuners analyze the query and unite their suggestions. `suggest`
lets every tuner take the administrator's votes into account and unites the suggestions again.

`deploy` and `suggest` need the connection only through a `Prober`; `addQuery` works on the
advisor's own connection. The list `start` may be the connection's `curHypConfig` list itself, as in
the main program: it then changes with every simulated configuration.
-/

namespace PgTuning.Advisor

open PgTuning.Lib PgTuning.Lib.Attempt List Function

def k : Nat := 2

def maxParition : Nat := 10

/-- The fields of a `Master`. `ik` is used below `k` only. -/
structure Master where
  workbench : List JString
  prevallCand : Option (List Index)
  allcand : Option (List Index)
  start : ConfigRef
  curCand : Option (List Index)
  ik : Nat → IndexTuner
  overallSugg : List Index
  first : Bool

def Master.new (startx : ConfigRef) (con : Connection) : Master where
  workbench := []
  prevallCand := some []
  allcand := some []
  start := startx
  curCand := none
  ik := fun _ => IndexTuner.new
  overallSugg := startx.read con
  first := true

structure MasterState (σ : Type) where
  master : Master
  con : σ

abbrev MasterM (σ α : Type) : Type := Attempt JavaException (MasterState σ) α

/-- The partitioner of the master's constructor: `prev` is 0. -/
def pr : Partitioner := ⟨k, maxParition, 0⟩

/-! ## Lists as sets -/

def intersect (s1 s2 : List Index) : List Index :=
  s1.filter fun t => (treeSet s2).contains t

def subtract (s1 s2 : List Index) : List Index :=
  s1.filter fun t => !((treeSet s2).contains t)

def union (s1 s2 : List Index) : List Index :=
  (FirstKept.insertAll (treeSet s1) s2).toList

section Operations

variable {σ : Type} (p : Prober σ)

def onMasterCon {α : Type} (m : Attempt JavaException σ α) : MasterM σ α :=
  zoom MasterState.con (fun s con => { s with con := con }) m

def onTuner {α : Type} (i : Nat) (m : TunerM σ α) : MasterM σ α :=
  zoom (fun s => ⟨s.master.ik i, s.con⟩)
    (fun s t => ⟨{ s.master with ik := update s.master.ik i t.tuner },
      t.con⟩) m

def readStart (s : MasterState σ) : List Index :=
  match s.master.start with
  | .list ixs => ixs
  | .curHypConfig => p.curHypConfig s.con

/-! ## `deploy` -/

/-- One pass of the loop of `updateCand`: the work function tuner `t` has for its
part of `ix`, or nothing when it has no such configuration. -/
def entryOf (t : IndexTuner) (ix : List Index) : MasterM σ ℚ := do
  let allCand ← nonNull t.allCand
  let inter := intersect allCand ix
  let curCand ← nonNull t.curCand
  if inter ∈ curCand then do
    let w ← nonNull t.w
    elemAt w (curCand.idxOf inter)
  else pure 0

def updateCand (ix dm : List Index) : MasterM σ ℚ := do
  let s ← get
  if s.master.first = true then onMasterCon (p.changeConfig (readStart p s) ix)
  else do
    let res ← (range k).foldlM (fun res i => do
      return res + (← entryOf (s.master.ik i) ix)) 0
    let prevallCand ← nonNull s.master.prevallCand
    let target := subtract ix prevallCand
    let curi := subtract (intersect (readStart p s) dm) prevallCand
    let change ← onMasterCon (p.changeConfig curi target)
    return res + change

/-- The members of `ix` at the one bits of `j`. -/
def pickBits : List Index → Nat → List Index
  | [], _ => []
  | i :: ix, px => if px % 2 = 1 then i :: pickBits ix (px / 2) else pickBits ix (px / 2)

/-- `1 << n` on a 32-bit `int`. -/
def oneShl (n : Nat) : Int :=
  if n % 32 = 31 then -2147483648 else 2 ^ (n % 32)

/-- The configurations `deploy` enumerates for a part, for `j = 1, 2, …` below
`1 << n`. -/
def configurations (ix : List Index) : List (List Index) :=
  (range' 1 ((oneShl ix.length).toNat - 1)).map (pickBits ix)

def modifyTuner (i : Nat) (f : IndexTuner → IndexTuner) (s : MasterState σ) :
    MasterState σ :=
  { s with
    master.ik := update s.master.ik i (f (s.master.ik i)) }

def deployPart (i : Nat) (ix : List Index) : MasterM σ Unit := do
  modify (modifyTuner i fun t => { t with allCand := some ix })
  let timeSet ← (configurations ix).mapM fun pc => updateCand p pc ix
  modify fun s => modifyTuner i (fun t =>
    { t with
      curCand := some (configurations ix)
      w := some timeSet
      sugg := some (intersect ix s.master.overallSugg) }) s

def deploy (part : List (List Index)) : MasterM σ Unit := do
  forM (range (min k part.length)) fun i => do
    let ix ← elemAt part i
    deployPart p i ix
  modify fun s => { s with master.first := false }

/-! ## `suggest` -/

/-- Unite the suggestions of the first `n` tuners. -/
def uniteSuggestions (n : Nat) : MasterM σ Unit := do
  modify fun s => { s with master.overallSugg := [] }
  forM (range n) fun i => do
    let s ← get
    let sugg ← nonNull (s.master.ik i).sugg
    modify fun s => { s with
      master.overallSugg := union s.master.overallSugg sugg }

def suggest (fPlus fMinus : List Index) : MasterM σ (List Index) := do
  forM (range k) fun i => onTuner i (feedback p fPlus fMinus)
  uniteSuggestions k
  let s ← get
  return s.master.overallSugg

end Operations

/-! ## `addQuery` -/

/-- `addQuery` on the advisor's connection; `fuel` bounds the passes of the
partitioner's merging loop. -/
def addQuery (env : Environment) (fuel : Nat) (query : JString) :
    MasterM Connection Unit := do
  modify fun s => { s with
    master.workbench := s.master.workbench ++ [query]
    master.prevallCand := s.master.allcand }
  let s ← get
  let curCand ← onMasterCon (CISelection env s.master.workbench)
  modify fun s => { s with master.curCand := some curCand }
  let curCand ← onMasterCon (enumerate env 10 curCand s.master.workbench)
  -- A `null` list is stored before `makeParitions` stumbles over it.
  modify fun s => { s with
    master.curCand := curCand
    master.allcand := curCand }
  let cand ← nonNull curCand
  let (ps, cand) ← onMasterCon (pr.makeParitions env s.master.workbench fuel cand)
  modify fun s => { s with
    master.curCand := some cand
    master.allcand := some cand }
  deploy (connectionProber env.server) ps
  forM (range (min k ps.length)) fun i =>
    onTuner i (analyze (connectionProber env.server) query)
  uniteSuggestions (min k ps.length)

/-! ## A small setting for concrete runs -/

def calmEnvironment : Environment where
  server := calmServer
  parse := fun _ => .condition
    [⟨.simple_comparison_t, js ['t', '.', 'a']⟩, ⟨.other, []⟩,
      ⟨.simple_comparison_t, js ['t', '.', 'b']⟩]
  setOrder := fun _ xs => xs
  setOrder_perm := fun _ _ => .refl _
  mapOrder := fun _ xs => xs
  mapOrder_perm := fun _ _ => .refl _
  sqrtSucc := fun _ => 1

/-- A new master, started on the connection's own list as the main program
does. -/
def newState : MasterState Connection :=
  ⟨Master.new .curHypConfig freshConnection, freshConnection⟩

def queriedState : MasterState Connection :=
  finalState (addQuery calmEnvironment 1 (js ['q'])) newState

end PgTuning.Advisor
