import Mathlib.Data.Nat.Choose.Basic
import Mathlib.Tactic.Linarith
import PgTuning.Advisor.Deploy

/-!
# What the partitioner makes of its candidates

`IsPartition` says what `makeParitions` is for, of the parts and of the pairs of candidates whose
edges were accepted. The program does not record these pairs, so the statement is about a logged
copy of the program, which `makeParitions_eq` ties to the program itself.

Nothing is ever merged. The counters `wt` start at 0, so no tree is smaller than another, and the
loop looks at its first edge for ever unless it does not start: it starts when there are more edges
than `k`.
-/

namespace PgTuning.Advisor

open PgTuning.Lib PgTuning.Lib.Attempt List Nat

namespace Partitioner

/-! ## The logged copy -/

/-- An edge with the two candidates its weight was calculated for. -/
structure WeighedEdge where
  edge : Edge
  left : Index
  right : Index

/-- The edges so far and the candidates in their present order. -/
abbrev Weighed := List WeighedEdge × List Index

/-- The pass of `edges` for the candidates at `i` and `j`. -/
def weighPair (pr : Partitioner) (env : Environment) (workBench : List JString) (i : Nat)
    (acc : Weighed) (j : Nat) : JavaM Weighed := do
  let a ← elemAt acc.2 i
  let b ← elemAt acc.2 j
  let (x, cand) ← pr.calculateWt env workBench a b acc.2
  return (acc.1 ++ [⟨Edge.new i j x, a, b⟩], cand)

/-- `edges`, with the candidates of each edge. -/
def weighedEdges (pr : Partitioner) (env : Environment) (workBench : List JString)
    (n : Nat) (cand : List Index) : JavaM Weighed :=
  (range n).foldlM (fun acc i =>
    (range' (i + 1) (n - (i + 1))).foldlM (pr.weighPair env workBench i) acc) ([], cand)

/-- `mergeLoop`, with the candidates of the edges it accepts. -/
def mergeLoopLogged (pr : Partitioner) (edgeList : List WeighedEdge) (curEdge : Nat) :
    Nat → Forest → List (Index × Index) → JavaM (Forest × List (Index × Index))
  | fuel, f, log =>
    if curEdge < edgeList.length ∧ pr.k < f.numpar then
      match fuel with
      | 0 => throw .unfinished
      | fuel + 1 => do
          let e ← elemAt edgeList curEdge
          let f' ← pr.mergePass (f.map.length + 1) e.edge f
          let log := if f'.numpar < f.numpar then log ++ [(e.left, e.right)] else log
          mergeLoopLogged pr edgeList curEdge fuel f' log
    else pure (f, log)

/-- `makeParitions`, with the accepted pairs of candidates. -/
def makeParitionsLogged (pr : Partitioner) (env : Environment) (workBench : List JString)
    (fuel : Nat) (cand : List Index) :
    JavaM (List (List Index) × List Index × List (Index × Index)) := do
  let n := cand.length
  let (edgeList, cand) ← pr.weighedEdges env workBench n cand
  let edgeList := edgeList.insertionSort fun e e' => e.edge.compareTo e'.edge ≠ .gt
  let (f, log) ← pr.mergeLoopLogged edgeList 0 fuel
    ⟨range n, replicate n 0, edgeList.length⟩ []
  let (st, par) ← roots n f.map
  return ((Std.TreeSet.ofList st compare).toList.map (group cand par), cand, log)

section Erase

variable {ε σ α β γ : Type}

/-- A loop whose passes agree up to `g` ends in results that agree up to `g`. -/
theorem foldlM_erase (g : β → γ) {f : β → α → Attempt ε σ β} {f' : γ → α → Attempt ε σ γ}
    (h : ∀ b x, f' (g b) x = g <$> f b x) (xs : List α) (b : β) :
    xs.foldlM f' (g b) = g <$> xs.foldlM f b := by
  induction xs generalizing b with
  | nil => simp
  | cons x xs ih =>
    simp only [foldlM_cons, h, bind_map_left, map_bind, ih]

end Erase

theorem edges_eq (pr : Partitioner) (env : Environment) (workBench : List JString) (n : Nat)
    (cand : List Index) :
    pr.edges env workBench n cand =
      (fun r => (r.1.map (·.edge), r.2)) <$> pr.weighedEdges env workBench n cand := by
  refine foldlM_erase (fun r : Weighed => (r.1.map (·.edge), r.2)) ?_ (range n) ([], cand)
  intro acc i
  refine foldlM_erase (fun r : Weighed => (r.1.map (·.edge), r.2)) ?_ _ acc
  simp [weighPair]

theorem elemAt_map {σ α β : Type} (g : α → β) (xs : List α) (i : Nat) :
    (elemAt (xs.map g) i : Attempt JavaException σ β) = g <$> elemAt xs i := by
  unfold elemAt
  rw [getElem?_map]
  cases xs[i]? <;> rfl

theorem mergeLoop_eq (pr : Partitioner) (edgeList : List WeighedEdge) (curEdge fuel : Nat)
    (f : Forest) (log : List (Index × Index)) :
    pr.mergeLoop (edgeList.map (·.edge)) curEdge fuel f =
      Prod.fst <$> pr.mergeLoopLogged edgeList curEdge fuel f log := by
  induction fuel generalizing f log with
  | zero =>
    unfold mergeLoop mergeLoopLogged
    rw [length_map]
    split
    · rfl
    · simp
  | succ fuel ih =>
    unfold mergeLoop mergeLoopLogged
    rw [length_map]
    split
    · simp only [elemAt_map, bind_map_left, map_bind, ← ih]
    · simp

/-- The program is its logged copy with the log left out. -/
theorem makeParitions_eq (pr : Partitioner) (env : Environment) (workBench : List JString)
    (fuel : Nat) (cand : List Index) :
    pr.makeParitions env workBench fuel cand =
      (fun r => (r.1, r.2.1)) <$> pr.makeParitionsLogged env workBench fuel cand := by
  have hSort : ∀ edgeList : List WeighedEdge,
      (edgeList.map (·.edge)).insertionSort (fun e e' => e.compareTo e' ≠ .gt) =
        (edgeList.insertionSort fun e e' => e.edge.compareTo e'.edge ≠ .gt).map (·.edge) :=
    fun edgeList => (map_insertionSort
      (fun e e' : WeighedEdge => e.edge.compareTo e'.edge ≠ .gt)
      (fun e e' : Edge => e.compareTo e' ≠ .gt) (·.edge) edgeList fun _ _ _ _ => Iff.rfl).symm
  unfold makeParitions makeParitionsLogged
  simp only [edges_eq, bind_map_left, map_bind, hSort, length_map, mergeLoop_eq _ _ _ _ _ [],
    map_pure]

/-! ## The pairs of candidates -/

/-- The two candidates are in the list, at different places. -/
def Pair (a b : Index) (cand : List Index) : Prop := List.Subperm [a, b] cand

variable {cand : List Index} {a b : Index}

theorem Pair.of_elemAt {i j : Nat} (hij : i < j)
    (ha : cand[i]? = some a) (hb : cand[j]? = some b) : Pair a b cand := by
  obtain ⟨hi, rfl⟩ := List.getElem?_eq_some_iff.mp ha
  obtain ⟨hj, rfl⟩ := List.getElem?_eq_some_iff.mp hb
  have hSub : [cand[i], cand[j]].Sublist cand := by
    have hDrop : [cand[j]].Sublist (cand.drop (i + 1)) := by
      rw [singleton_sublist, mem_drop_iff_getElem]
      exact ⟨j - (i + 1), by omega, by congr 1; omega⟩
    have hCons : (cand[i] :: [cand[j]]).Sublist (cand[i] :: cand.drop (i + 1)) := hDrop.cons_cons _
    rw [← drop_eq_getElem_cons hi] at hCons
    exact hCons.trans (drop_sublist i cand)
  exact hSub.subperm

theorem Pair.perm (h : Pair a b cand) : (((cand.erase a).erase b ++ [a]) ++ [b]).Perm cand := by
  have ha : a ∈ cand := h.subset (by simp)
  have hb : b ∈ cand.erase a := by
    have hErase := h.erase a
    exact hErase.subset (by simp)
  rw [append_assoc]
  exact (perm_append_comm.trans
    (((perm_cons_erase hb).symm.cons a).trans (perm_cons_erase ha).symm))

theorem interaction_ends (env : Environment) (workBench : List JString)
    (h : Pair a b cand) (i : Nat) :
    Ends (fun _ => True) (interaction env workBench a b cand i)
      (fun r _ => r.2.Perm cand) (fun _ => True) := by
  iterate 7 refine (ends_trivial _).bind fun _ => ?_
  exact ends_pure fun _ _ => h.perm

theorem calculateWt_ends (pr : Partitioner) (env : Environment) (workBench : List JString)
    (h : Pair a b cand) :
    Ends (fun _ => True) (pr.calculateWt env workBench a b cand)
      (fun r _ => r.2.Perm cand) (fun _ => True) := by
  refine (ends_foldlM_range (I := fun _ (acc : ℚ × List Index) (_ : Connection) => acc.2.Perm cand)
    (min pr.prev cand.length) (0, cand) ?_).pre fun _ _ => List.Perm.refl cand
  intro i _ acc s hs
  have hPair : Pair a b acc.2 := List.Subperm.trans h hs.symm.subperm
  refine ((interaction_ends env workBench hPair i).bind fun r => ?_) s trivial
  exact ends_pure fun _ hr => hr.trans hs

/-- What the loops over the pairs keep: `count` edges, the first end of each a candidate and its
second end the first candidate, and the candidates in another order. -/
structure Weighing (cand : List Index) (count : Nat) (acc : Weighed) : Prop where
  length : acc.1.length = count
  ends : ∀ e ∈ acc.1, e.edge.a < cand.length ∧ e.edge.b = 0
  perm : acc.2.Perm cand

section Weighing

variable (pr : Partitioner) (env : Environment) (workBench : List JString) {cand : List Index}
  {i count : Nat} {acc : Weighed}

theorem weighPair_ends {j : Nat} (hij : i < j) (hi : i < cand.length)
    (h : Weighing cand count acc) :
    Ends (fun _ => True) (pr.weighPair env workBench i acc j)
      (fun acc' _ => Weighing cand (count + 1) acc') (fun _ => True) := by
  intro s _
  cases hRun : pr.weighPair env workBench i acc j s with
  | error e t => trivial
  | ok acc' t =>
    obtain ⟨a, s₁, ha, hRun⟩ := bind_eq_ok.mp hRun
    obtain ⟨b, s₂, hb, hRun⟩ := bind_eq_ok.mp hRun
    obtain ⟨r, s₃, hr, hPure⟩ := bind_eq_ok.mp hRun
    cases hPure
    have hPair : Pair a b acc.2 := Pair.of_elemAt hij (elemAt_eq_ok ha).1 (elemAt_eq_ok hb).1
    have hPerm := (calculateWt_ends pr env workBench hPair).ok trivial hr
    exact ⟨by simp [h.length], forall_mem_concat h.ends ⟨hi, rfl⟩, hPerm.trans h.perm⟩

theorem weighRow_ends (hi : i < cand.length) (h : Weighing cand count acc) :
    Ends (fun _ => True)
      ((range' (i + 1) (cand.length - (i + 1))).foldlM (pr.weighPair env workBench i) acc)
      (fun acc' _ => Weighing cand (count + (cand.length - (i + 1))) acc') (fun _ => True) := by
  refine ((ends_foldlM
    (I := fun done acc (_ : Connection) => Weighing cand (count + done.length) acc)
    (range' (i + 1) (cand.length - (i + 1))) acc ?_).pre fun _ _ => h).post
    fun acc' _ hr => by simpa using hr
  intro pre j post acc' hSplit s hs
  have hj : j ∈ range' (i + 1) (cand.length - (i + 1)) := by
    rw [hSplit]
    simp
  have hij : i < j := (mem_range'_1.mp hj).1
  have hPass := weighPair_ends pr env workBench hij hi hs s trivial
  simpa [add_assoc] using hPass

/-- All pairs: after `k` rows there are `k n - k (k + 1) / 2` edges. -/
theorem weighedEdges_ends (cand : List Index) :
    Ends (fun _ => True) (pr.weighedEdges env workBench cand.length cand)
      (fun r _ => Weighing cand (cand.length.choose 2) r) (fun _ => True) := by
  refine ((ends_foldlM_range (I := fun k acc (_ : Connection) => ∃ count,
    2 * count + k * (k + 1) = 2 * (k * cand.length) ∧ Weighing cand count acc)
    cand.length ([], cand) ?_).pre fun _ _ => ⟨0, by simp, rfl, by simp, List.Perm.refl _⟩).post ?_
  rotate_left
  · rintro acc - ⟨count, hCount, hWeighing⟩
    have hChoose : count = cand.length.choose 2 := by
      rw [choose_two_right]
      generalize cand.length = n at hCount
      cases n with
      | zero => omega
      | succ n =>
        rw [Nat.add_sub_cancel]
        have : 2 * count = (n + 1) * n := by nlinarith
        omega
    exact hChoose ▸ hWeighing
  · rintro k hk acc s ⟨count, hCount, hWeighing⟩
    refine (weighRow_ends pr env workBench hk hWeighing).post (fun _ _ hRow => ⟨_, ?_, hRow⟩) s trivial
    have : 2 * (cand.length - (k + 1)) + 2 * (k + 1) = 2 * cand.length := by omega
    nlinarith

end Weighing

/-! ## The forest never changes -/

section Idle

variable {n : Nat}

theorem parent_range (fuel : Nat) {x : Nat} (hx : x < n) :
    parent (fuel + 1) x (range n) = pure (x, range n) := by
  simp [parent, elemAt, getElem?_range hx]

/-- The first forest: every candidate alone, and every counter 0. -/
def idle (n numpar : Nat) : Forest := ⟨range n, replicate n 0, numpar⟩

/-- Two counters that are 0 are not less than each other: no edge is accepted. -/
theorem mergePass_idle (pr : Partitioner) (fuel numpar : Nat) {edge : Edge} (ha : edge.a < n)
    (hb : edge.b < n) : pr.mergePass (fuel + 1) edge (idle n numpar) = pure (idle n numpar) := by
  have hWt : ∀ t < n, (elemAt (replicate n (0 : Int)) t : JavaM Int) = pure 0 := by
    intro t ht
    simp [elemAt, ht]
  simp [mergePass, idle, parent_range fuel ha, parent_range fuel hb, hWt _ ha, hWt _ hb]

/-- Once it starts, the loop goes on for ever. -/
theorem mergeLoopLogged_unfinished (pr : Partitioner) {edgeList : List WeighedEdge}
    (hEnds : ∀ e ∈ edgeList, e.edge.a < n ∧ e.edge.b < n) (hSome : 0 < edgeList.length)
    {numpar : Nat} (hMany : pr.k < numpar) (fuel : Nat) (log : List (Index × Index))
    (con : Connection) :
    pr.mergeLoopLogged edgeList 0 fuel (idle n numpar) log con = .error .unfinished con := by
  have hGo : 0 < edgeList.length ∧ pr.k < (idle n numpar).numpar := ⟨hSome, hMany⟩
  induction fuel generalizing log with
  | zero =>
    unfold mergeLoopLogged
    rw [if_pos hGo]
    rfl
  | succ fuel ih =>
    obtain ⟨e, rest, rfl⟩ := exists_cons_of_length_pos hSome
    obtain ⟨ha, hb⟩ := hEnds e mem_cons_self
    unfold mergeLoopLogged
    rw [if_pos hGo]
    have hFirst : (elemAt (e :: rest) 0 : JavaM WeighedEdge) = pure e := rfl
    simp only [hFirst, pure_bind, mergePass_idle pr _ numpar ha hb, lt_irrefl]
    exact ih log

/-- The loop of `roots` collects the candidates themselves, for the set and for the array. -/
theorem roots_range (n : Nat) : roots n (range n) = pure (range n, range n) := by
  have hLoop : ∀ xs : List Nat, (∀ x ∈ xs, x < n) → ∀ st par : List Nat,
      xs.foldlM (fun (acc : List Nat × List Nat × List Nat) i => (do
          let r ← parent (n + 1) i acc.2.2
          let r' ← parent (n + 1) i r.2
          return (acc.1 ++ [r.1], acc.2.1 ++ [r'.1], r'.2) : JavaM (List Nat × List Nat × List Nat)))
        (st, par, range n) = pure (st ++ xs, par ++ xs, range n) := by
    intro xs
    induction xs with
    | nil => simp
    | cons x xs ih =>
      intro hAll st par
      have hx := hAll x mem_cons_self
      have hRest := ih (fun y hy => hAll y (mem_cons_of_mem x hy)) (st ++ [x]) (par ++ [x])
      simp only [foldlM_cons, parent_range n hx, pure_bind, hRest, append_assoc, singleton_append]
  unfold roots
  rw [hLoop (range n) (fun x hx => mem_range.mp hx) [] []]
  simp

theorem toList_range (n : Nat) :
    (Std.TreeSet.ofList (range n) compare).toList = range n := by
  have hOrdered : (Std.TreeSet.ofList (range n) compare).toList.Pairwise (· < ·) :=
    Std.TreeSet.ordered_toList.imp fun h => Nat.compare_eq_lt.mp h
  refine List.Perm.eq_of_pairwise (fun a b _ _ hab hba => absurd hab (Nat.lt_asymm hba)) hOrdered
    pairwise_lt_range ?_
  rw [perm_ext_iff_of_nodup (hOrdered.imp Nat.ne_of_lt) nodup_range]
  intro k
  rw [Std.TreeSet.mem_toList, Std.TreeSet.mem_ofList, contains_iff_mem]

/-- The candidates of a root that has only itself. -/
theorem zip_range_filter (cand : List Index) (start i : Nat) :
    ((cand.zip (range' start cand.length)).filter fun e => e.2 == i).map Prod.fst =
      if start ≤ i then (cand[i - start]?).toList else [] := by
  induction cand generalizing start with
  | nil => simp
  | cons c cand ih =>
    rw [length_cons, range'_succ, zip_cons_cons, filter_cons]
    by_cases hHere : start = i
    · subst hHere
      simp only [BEq.rfl, if_true, map_cons, ih]
      simp
    · simp only [beq_eq_false_iff_ne.mpr hHere, Bool.false_eq_true, if_false, ih]
      by_cases hLe : start ≤ i
      · have hSub : i - start = i - (start + 1) + 1 := by omega
        rw [if_pos hLe, if_pos (by omega), hSub, getElem?_cons_succ]
      · rw [if_neg hLe, if_neg (by omega)]

theorem group_range (cand : List Index) :
    (range cand.length).map (group cand (range cand.length)) = cand.map fun c => [c] := by
  have hGroup : ∀ i, group cand (range cand.length) i = (cand[i]?).toList := by
    intro i
    have hFilter := zip_range_filter cand 0 i
    simpa [group, range_eq_range'] using hFilter
  apply ext_getElem
  · simp
  · intro i hi hi'
    simp [hGroup]

end Idle

/-! ## Partitions -/

def Joins (accepted : List (Index × Index)) (x y : Index) : Prop :=
  (x, y) ∈ accepted ∨ (y, x) ∈ accepted

/-- What the parts, and the accepted pairs in their order, are meant to be. A part of more than one
candidate was made by merging, and before each merging there were more than `k` parts. -/
structure IsPartition (pr : Partitioner) (cand : List Index) (accepted : List (Index × Index))
    (parts : List (List Index)) : Prop where
  perm : parts.flatten.Perm cand
  nonempty : ∀ part ∈ parts, part ≠ []
  joined : ∀ part ∈ parts, ∀ x ∈ part, ∀ y ∈ part, Relation.ReflTransGen (Joins accepted) x y
  bounded : ∀ part ∈ parts, 1 < part.length → (part.length : Int) ≤ pr.maxPartition
  stops : accepted ≠ [] → pr.k + accepted.length ≤ cand.length

theorem isPartition_singletons (pr : Partitioner) {cand cand' : List Index}
    (h : cand'.Perm cand) : IsPartition pr cand [] (cand'.map fun c => [c]) where
  perm := by
    rw [← flatMap_def, flatMap_singleton']
    exact h
  nonempty part hPart := by
    obtain ⟨c, -, rfl⟩ := mem_map.mp hPart
    simp
  joined part hPart x hx y hy := by
    obtain ⟨c, -, rfl⟩ := mem_map.mp hPart
    rw [mem_singleton.mp hx, mem_singleton.mp hy]
  bounded part hPart hMany := by
    obtain ⟨c, -, rfl⟩ := mem_map.mp hPart
    simp at hMany
  stops h := absurd rfl h

section Runs

variable (pr : Partitioner) (env : Environment) (workBench : List JString) (cand : List Index)
  (con : Connection)

/-- What the run does once the weights are there. -/
theorem makeParitionsLogged_of_weights {edgeList : List WeighedEdge} {cand' : List Index}
    {con' : Connection}
    (hWeights : pr.weighedEdges env workBench cand.length cand con = .ok (edgeList, cand') con')
    (fuel : Nat) :
    pr.makeParitionsLogged env workBench fuel cand con =
      if cand.length.choose 2 ≤ pr.k then .ok (cand'.map fun c => [c], cand', []) con'
      else .error .unfinished con' := by
  have hWeighing := (weighedEdges_ends pr env workBench cand).ok trivial hWeights
  have hPerm := perm_insertionSort
    (fun e e' : WeighedEdge => e.edge.compareTo e'.edge ≠ .gt) edgeList
  unfold makeParitionsLogged
  rw [bind_run_ok hWeights]
  dsimp only
  generalize edgeList.insertionSort
    (fun e e' : WeighedEdge => e.edge.compareTo e'.edge ≠ .gt) = sorted at hPerm
  have hLength : sorted.length = cand.length.choose 2 := hPerm.length_eq.trans hWeighing.length
  have hEnds : ∀ e ∈ sorted, e.edge.a < cand.length ∧ e.edge.b < cand.length := by
    intro e he
    obtain ⟨ha, hb⟩ := hWeighing.ends e (hPerm.subset he)
    exact ⟨ha, by omega⟩
  rw [hLength]
  by_cases hFew : cand.length.choose 2 ≤ pr.k
  · have hStop : pr.mergeLoopLogged sorted 0 fuel (idle cand.length (cand.length.choose 2)) [] =
        pure (idle cand.length (cand.length.choose 2), []) := by
      unfold mergeLoopLogged
      rw [if_neg fun hGo => not_lt.mpr hFew hGo.2]
    have hRoots := roots_range cand.length
    have hGroups := group_range cand'
    rw [hWeighing.perm.length_eq] at hGroups
    rw [if_pos hFew]
    show (pr.mergeLoopLogged sorted 0 fuel (idle cand.length (cand.length.choose 2)) [] >>= _) con'
      = _
    rw [hStop]
    simp only [idle, hRoots, pure_bind, toList_range, hGroups]
    rfl
  · have hStuck := mergeLoopLogged_unfinished pr hEnds (by rw [hLength]; omega)
      (Nat.lt_of_not_le hFew) fuel [] con'
    rw [if_neg hFew]
    exact bind_run_error hStuck _

/-- **Partition.**  With the weights calculated, the parts that come out are a partition of the
candidates exactly if there are at most `k` pairs of candidates; with more pairs no number of passes
is enough. -/
theorem makeParitions_partition_iff
    (hWeights : ∃ r con', pr.weighedEdges env workBench cand.length cand con = .ok r con') :
    (∃ fuel parts cand' accepted con',
        pr.makeParitionsLogged env workBench fuel cand con = .ok (parts, cand', accepted) con' ∧
        pr.makeParitions env workBench fuel cand con = .ok (parts, cand') con' ∧
        IsPartition pr cand accepted parts) ↔
      cand.length.choose 2 ≤ pr.k := by
  obtain ⟨⟨edgeList, cand'⟩, con', hWeights⟩ := hWeights
  have hRun := makeParitionsLogged_of_weights pr env workBench cand con hWeights
  have hWeighing := (weighedEdges_ends pr env workBench cand).ok trivial hWeights
  constructor
  · rintro ⟨fuel, parts, cand'', accepted, con'', hOk, -, -⟩
    by_contra hMany
    rw [hRun fuel, if_neg hMany] at hOk
    cases hOk
  · intro hFew
    have hOk := (hRun 0).trans (if_pos hFew)
    refine ⟨0, _, cand', [], con', hOk, ?_, isPartition_singletons pr hWeighing.perm⟩
    rw [makeParitions_eq, map_eq_pure_bind, bind_run_ok hOk]
    rfl

end Runs

/-- The two candidates of a first query, with the constants of the program. -/
theorem makeParitions_partition_two :
    ∃ fuel parts cand' accepted con',
      pr.makeParitionsLogged calmEnvironment [] fuel [candidateOn 1 'a', candidateOn 2 'b']
        freshConnection = .ok (parts, cand', accepted) con' ∧
      pr.makeParitions calmEnvironment [] fuel [candidateOn 1 'a', candidateOn 2 'b']
        freshConnection = .ok (parts, cand') con' ∧
      IsPartition pr [candidateOn 1 'a', candidateOn 2 'b'] accepted parts :=
  (makeParitions_partition_iff pr calmEnvironment [] [candidateOn 1 'a', candidateOn 2 'b']
    freshConnection ⟨_, _, rfl⟩).mpr (by decide)

/-- With a third candidate there are three pairs, one more than `k`, and the program does not come
back. -/
theorem makeParitions_three_unfinished :
    ¬∃ fuel r con', pr.makeParitions calmEnvironment [] fuel
      [candidateOn 1 'a', candidateOn 2 'b', candidateOn 3 'c'] freshConnection = .ok r con' := by
  rintro ⟨fuel, r, con', hRun⟩
  have hStuck := makeParitionsLogged_of_weights pr calmEnvironment []
    [candidateOn 1 'a', candidateOn 2 'b', candidateOn 3 'c'] freshConnection rfl fuel
  rw [makeParitions_eq, map_eq_pure_bind, bind_run_error hStuck] at hRun
  cases hRun

end Partitioner

end PgTuning.Advisor
