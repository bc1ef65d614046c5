import PgTuning.Advisor.Selection
import PgTuning.Advisor.Tuner

/-!
# The partitioner

`makeParitions` splits the candidates into parts by merging, over weighted pairs of candidates, the
trees of a union-find forest. The code is kept as it stands: the constructor of an edge assigns its
second end to the parameter instead of the field, so every edge ends in candidate 0; the merging
loop never moves on to the next edge; and it compares the number of *edges* with the number of parts
wanted. The loop therefore gets a number of passes, and a run that needs more ends as `unfinished`.
-/

namespace PgTuning.Advisor

open PgTuning.Lib PgTuning.Lib.Attempt List

structure Partitioner where
  k : Nat
  maxPartition : Int
  prev : Nat

structure Edge where
  a : Nat
  b : Nat
  wt : ℚ

/-- The constructor `Edge(ax, bx, wtx)`: `bx = b` leaves the field at 0. -/
def Edge.new (ax _bx : Nat) (wtx : ℚ) : Edge := ⟨ax, 0, wtx⟩

/-- `Edge.compareTo`: heavier edges first, then by the ends. -/
def Edge.compareTo (this o : Edge) : Ordering :=
  if this.wt > o.wt then .lt
  else if this.wt < o.wt then .gt
  else if this.a = o.a ∧ this.b = o.b then .eq
  else if this.a < o.a then .lt
  else if this.a > o.a then .gt
  else if this.b < o.b then .lt
  else .gt

/-- `list.get(i)` where `i` may be negative. -/
def elemAtInt {σ α : Type} (xs : List α) (i : Int) : Attempt JavaException σ α :=
  if i < 0 then throw .indexOutOfBounds else elemAt xs i.toNat

namespace Partitioner

/-- One pass of the loop of `calculateWt`, which reorders `cand` as it goes. -/
def interaction (env : Environment) (workBench : List JString) (a b : Index)
    (cand : List Index) (i : Nat) : JavaM (ℚ × List Index) := do
  let query ← elemAtInt workBench ((workBench.length : Int) - i - 1)
  let denom ← whatIf env.server query (.list cand)
  let denom ← unbox denom
  let cand := cand.erase a
  let cost ← whatIf env.server query (.list cand)
  let num1 := denom - (← unbox cost)
  let cand := cand.erase b ++ [a]
  let cost ← whatIf env.server query (.list cand)
  let num2 := denom - (← unbox cost)
  return (|num1 + num2 / denom| / env.sqrtSucc i, cand ++ [b])

/-- `calculateWt`: the weight, and the list as it leaves it. -/
def calculateWt (pr : Partitioner) (env : Environment) (workBench : List JString)
    (a b : Index) (cand : List Index) : JavaM (ℚ × List Index) :=
  (range (min pr.prev cand.length)).foldlM (fun (acc : ℚ × List Index) i => do
    let (x, cand) ← interaction env workBench a b acc.2 i
    return (acc.1 + x, cand)) (0, cand)

def edges (pr : Partitioner) (env : Environment) (workBench : List JString)
    (n : Nat) (cand : List Index) : JavaM (List Edge × List Index) :=
  (range n).foldlM (fun (acc : List Edge × List Index) i =>
    (range' (i + 1) (n - (i + 1))).foldlM
      (fun (acc : List Edge × List Index) j => do
        let a ← elemAt acc.2 i
        let b ← elemAt acc.2 j
        let (x, cand) ← pr.calculateWt env workBench a b acc.2
        return (acc.1 ++ [Edge.new i j x], cand)) acc) ([], cand)

/-- `parent` with path halving: the root, and the array as it leaves it. -/
def parent : Nat → Nat → List Nat → JavaM (Nat × List Nat)
  | 0, _, _ => throw .unfinished
  | fuel + 1, x, ed => do
      let temp ← elemAt ed x
      if x = temp then pure (x, ed)
      else do
        let up ← elemAt ed temp
        parent fuel temp (ed.set x up)

structure Forest where
  map : List Nat
  wt : List Int
  numpar : Nat

def mergePass (pr : Partitioner) (fuel : Nat) (edge : Edge) (f : Forest) :
    JavaM Forest := do
  let (t1, map) ← parent fuel edge.a f.map
  let (t2, map) ← parent fuel edge.b map
  let w1 ← elemAt f.wt t1
  let w2 ← elemAt f.wt t2
  if t1 ≠ t2 then
    if w1 < w2 ∧ w2 < pr.maxPartition then
      return ⟨map.set t1 t2, f.wt.set t2 (w2 + w1), f.numpar - 1⟩
    else if w2 < w1 ∧ w1 < pr.maxPartition then
      return ⟨map.set t2 t1, f.wt.set t1 (w1 + w2), f.numpar - 1⟩
    else return ⟨map, f.wt, f.numpar⟩
  else return ⟨map, f.wt, f.numpar⟩

/-- The merging loop: `curEdge` stays where it is. -/
def mergeLoop (pr : Partitioner) (edgeList : List Edge) (curEdge : Nat) :
    Nat → Forest → JavaM Forest
  | fuel, f =>
    if curEdge < edgeList.length ∧ pr.k < f.numpar then
      match fuel with
      | 0 => throw .unfinished
      | fuel + 1 => do
          let edge ← elemAt edgeList curEdge
          let f ← pr.mergePass (f.map.length + 1) edge f
          mergeLoop pr edgeList curEdge fuel f
    else pure f

/-- The loop that asks for the root of every candidate twice: once for the set
`st`, once for the array `par`. -/
def roots (n : Nat) (map : List Nat) : JavaM (List Nat × List Nat) := do
  let (st, par, _) ← (range n).foldlM
    (fun (acc : List Nat × List Nat × List Nat) i => do
      let (r, map) ← parent (n + 1) i acc.2.2
      let (r', map) ← parent (n + 1) i map
      return (acc.1 ++ [r], acc.2.1 ++ [r'], map)) ([], [], map)
  return (st, par)

def group (cand : List Index) (par : List Nat) (ip : Nat) : List Index :=
  ((cand.zip par).filter fun e => e.2 == ip).map Prod.fst

/-- `makeParitions`: the parts, and the list of candidates as it leaves it. -/
def makeParitions (pr : Partitioner) (env : Environment)
    (workBench : List JString) (fuel : Nat) (cand : List Index) :
    JavaM (List (List Index) × List Index) := do
  let n := cand.length
  let (edgeList, cand) ← pr.edges env workBench n cand
  let edgeList := edgeList.insertionSort fun e e' => e.compareTo e' ≠ .gt
  let f ← pr.mergeLoop edgeList 0 fuel
    ⟨range n, replicate n 0, edgeList.length⟩
  let (st, par) ← roots n f.map
  return ((Std.TreeSet.ofList st compare).toList.map (group cand par), cand)

end Partitioner

end PgTuning.Advisor
