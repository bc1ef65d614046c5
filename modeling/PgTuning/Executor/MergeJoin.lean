import PgTuning.Access.Nbtree
import PgTuning.Executor.Join

/-!
# `ExecMergeJoin`

The state machine of `nodeMergejoin.c`. The outer plan is the list of the tuples it has still to
return; the inner plan is such a list together with the position of the last mark. `mjStep` is one
turn of the loop in `ExecMergeJoin`: it returns to the top of the loop with the rows the turn has
made, if any, or it is the end of the join. A row is returned to the caller at once, and the next
call goes on in the state left behind.
-/

namespace PgTuning.Executor

/-! ## The plan node -/

/-- A join qual: a constant, or an expression over the two tuples. `none` is NULL. -/
inductive Qual (O I : Type) where
  | const (value : Option Bool)
  | expr (eval : O → I → Option Bool)

def Qual.eval {O I : Type} : Qual O I → O → I → Option Bool
  | .const value, _, _ => value
  | .expr eval, o, i => eval o i

/-- `ExecQual`: every qual is true. -/
def execQual {O I : Type} (quals : List (Qual O I)) (o : O) (i : I) : Bool :=
  quals.all fun qual => qual.eval o i == some true

/-- `check_constant_qual`: `none` if some qual is not a constant, and otherwise whether
`is_const_false` is set. -/
def checkConstantQual {O I : Type} : List (Qual O I) → Bool → Option Bool
  | [], isConstFalse => some isConstFalse
  | .const value :: quals, isConstFalse =>
    checkConstantQual quals (if value = some true then isConstFalse else true)
  | .expr _ :: _, _ => none

/-- `MergeJoinClauseData`: an equality of two expressions and the order its inputs are
sorted by. -/
structure MergeJoinClause (O I K : Type) where
  lexpr : O → Option K
  rexpr : I → Option K
  cmp : K → K → Int
  reverse : Bool
  nullsFirst : Bool

/-- A merge join. The other quals and the target list of a semijoin or an antijoin read
the outer row only. -/
structure MergeJoin (O I K R : Type) where
  jointype : JoinType
  clauses : List (MergeJoinClause O I K)
  joinqual : List (Qual O I)
  otherqual : Option O → Option I → Bool
  project : Option O → Option I → List R
  extraMarks : Bool
  outer_only : jointype = .semi ∨ jointype = .anti →
    ∀ o i, otherqual o i = otherqual o none ∧ project o i = project o none

/-- The rows of a pair that passes the other quals. -/
def MergeJoin.emit {O I K R : Type} (node : MergeJoin O I K R) (o : Option O) (i : Option I) :
    List R :=
  if node.otherqual o i then node.project o i else []

def MergeJoin.constFalseJoin {O I K R : Type} (node : MergeJoin O I K R) : Bool :=
  node.jointype.fillInner && (checkConstantQual node.joinqual false).getD false

/-! ## The state -/

inductive MJState where
  | initializeOuter
  | initializeInner
  | joinTuples
  | nextOuter
  | testOuter
  | nextInner
  | skipTest
  | skipOuterAdvance
  | skipInnerAdvance
  | endOuter
  | endInner
  deriving DecidableEq, Repr

inductive MJEvalResult where
  | matchable
  | nonmatchable
  | endOfJoin
  deriving DecidableEq, Repr

/-- `MergeJoinState`: the state, the slots, the loaded join values, the tuples the plans
have still to return, and the position of the mark in the inner plan. -/
structure MergeJoinState (O I K : Type) where
  joinState : MJState
  matchedOuter : Bool
  matchedInner : Bool
  outerTupleSlot : Option O
  innerTupleSlot : Option I
  markedTupleSlot : Option I
  ldatum : List (Option K)
  rdatum : List (Option K)
  outerPlan : List O
  innerPlan : List I
  innerMark : List I

variable {O I K R : Type}

def execInitMergeJoin (node : MergeJoin O I K R) (outer : List O) (inner : List I) :
    Except String (MergeJoinState O I K) :=
  let st : MergeJoinState O I K :=
    { joinState := .initializeOuter
      matchedOuter := false
      matchedInner := false
      outerTupleSlot := none
      innerTupleSlot := none
      markedTupleSlot := none
      ldatum := []
      rdatum := []
      outerPlan := outer
      innerPlan := inner
      innerMark := inner }
  match node.jointype, checkConstantQual node.joinqual false with
  | .right, none =>
    .error "RIGHT JOIN is only supported with merge-joinable join conditions"
  | .full, none =>
    .error "FULL JOIN is only supported with merge-joinable join conditions"
  | _, _ => .ok st

namespace MergeJoinState

def fetchOuter (st : MergeJoinState O I K) : MergeJoinState O I K :=
  { st with
    outerTupleSlot := st.outerPlan.head?
    outerPlan := st.outerPlan.tail }

def fetchInner (st : MergeJoinState O I K) : MergeJoinState O I K :=
  { st with
    innerTupleSlot := st.innerPlan.head?
    innerPlan := st.innerPlan.tail }

def markPos (st : MergeJoinState O I K) : MergeJoinState O I K :=
  { st with innerMark := st.innerPlan }

def restrPos (st : MergeJoinState O I K) : MergeJoinState O I K :=
  { st with innerPlan := st.innerMark }

end MergeJoinState

/-! ## Join values -/

/-- The body of the loop of `MJEvalOuterValues` and `MJEvalInnerValues`, for the value of
the `n`-th clause; `fill` is whether this side has to be visited to its end. -/
def mjEvalValue (fill : Bool) (n : Nat) (clause : MergeJoinClause O I K) (result : MJEvalResult) :
    Option K → MJEvalResult
  | some _ => result
  | none =>
    if n = 0 ∧ clause.nullsFirst = false ∧ fill = false then .endOfJoin
    else if result = .matchable then .nonmatchable
    else result

/-- The loop over the clauses, from the `n`-th on. -/
def mjEvalLoop (fill : Bool) (n : Nat) (result : MJEvalResult) :
    List (MergeJoinClause O I K) → List (Option K) → MJEvalResult
  | [], _ => result
  | _ :: _, [] => result
  | clause :: clauses, value :: values =>
    mjEvalLoop fill (n + 1) (mjEvalValue fill n clause result value) clauses values

variable (node : MergeJoin O I K R)

def MergeJoin.outerValues (o : O) : List (Option K) := node.clauses.map fun c => c.lexpr o

def MergeJoin.innerValues (i : I) : List (Option K) := node.clauses.map fun c => c.rexpr i

def mjEvalOuterValues (st : MergeJoinState O I K) : MJEvalResult × MergeJoinState O I K :=
  match st.outerTupleSlot with
  | none => (.endOfJoin, st)
  | some o =>
    (mjEvalLoop node.jointype.fillOuter 0 .matchable node.clauses (node.outerValues o),
      { st with ldatum := node.outerValues o })

def mjEvalInnerValues (st : MergeJoinState O I K) (innerslot : Option I) :
    MJEvalResult × MergeJoinState O I K :=
  match innerslot with
  | none => (.endOfJoin, st)
  | some i =>
    (mjEvalLoop node.jointype.fillInner 0 .matchable node.clauses (node.innerValues i),
      { st with rdatum := node.innerValues i })

/-- The result of the comparison function, negated for a descending order. -/
def MergeJoinClause.compareDatums (clause : MergeJoinClause O I K) (a b : K) : Int :=
  if clause.reverse then Nbtree.negInt32 (clause.cmp a b) else clause.cmp a b

/-- The loop of `MJCompare`: the result, and `nulleqnull`. Comparison functions do not
return NULL. -/
def mjCompareLoop : List (MergeJoinClause O I K) → List (Option K) → List (Option K) → Bool →
    Int × Bool
  | clause :: clauses, l :: ls, r :: rs, nulleqnull =>
    match l, r with
    | none, none => mjCompareLoop clauses ls rs true
    | none, some _ => (if clause.nullsFirst then -1 else 1, nulleqnull)
    | some _, none => (if clause.nullsFirst then 1 else -1, nulleqnull)
    | some a, some b =>
      if clause.compareDatums a b ≠ 0 then (clause.compareDatums a b, nulleqnull)
      else mjCompareLoop clauses ls rs nulleqnull
  | _, _, _, nulleqnull => (0, nulleqnull)

def mjCompare (st : MergeJoinState O I K) : Int :=
  let (result, nulleqnull) := mjCompareLoop node.clauses st.ldatum st.rdatum false
  if result = 0 ∧ (nulleqnull || node.constFalseJoin) then 1 else result

/-! ## The loop -/

def mjFillOuter (st : MergeJoinState O I K) : List R := node.emit st.outerTupleSlot none

def mjFillInner (st : MergeJoinState O I K) : List R := node.emit none st.innerTupleSlot

inductive MJStep (O I K R : Type) where
  | next (st : MergeJoinState O I K) (rows : List R)
  | done
  | assertFailed

/-- The code before an advance of the outer plan: a null-extended row that is made is
returned first. -/
def fillOuterThen (st : MergeJoinState O I K) (advance : MergeJoinState O I K → MJStep O I K R) :
    MJStep O I K R :=
  if node.jointype.fillOuter && !st.matchedOuter then
    let st := { st with matchedOuter := true }
    match mjFillOuter node st with
    | [] => advance st
    | row :: rows => .next st (row :: rows)
  else advance st

/-- The code before an advance of the inner plan. -/
def fillInnerThen (st : MergeJoinState O I K) (advance : MergeJoinState O I K → MJStep O I K R) :
    MJStep O I K R :=
  if node.jointype.fillInner && !st.matchedInner then
    let st := { st with matchedInner := true }
    match mjFillInner node st with
    | [] => advance st
    | row :: rows => .next st (row :: rows)
  else advance st

def initializeOuter (st : MergeJoinState O I K) : MJStep O I K R :=
  let (result, st) := mjEvalOuterValues node st.fetchOuter
  match result with
  | .matchable => .next { st with joinState := .initializeInner } []
  | .nonmatchable =>
    if node.jointype.fillOuter then .next st (mjFillOuter node st) else .next st []
  | .endOfJoin =>
    if node.jointype.fillInner then
      .next { st with joinState := .endOuter, matchedInner := true } []
    else .done

def initializeInner (st : MergeJoinState O I K) : MJStep O I K R :=
  let st := st.fetchInner
  let (result, st) := mjEvalInnerValues node st st.innerTupleSlot
  match result with
  | .matchable => .next { st with joinState := .skipTest } []
  | .nonmatchable =>
    let st := if node.extraMarks then st.markPos else st
    if node.jointype.fillInner then .next st (mjFillInner node st) else .next st []
  | .endOfJoin =>
    if node.jointype.fillOuter then
      .next { st with joinState := .endInner, matchedOuter := false } []
    else .done

/-- `EXEC_MJ_JOINTUPLES`, for the two tuples of the slots. -/
def joinTuples (st : MergeJoinState O I K) (o : O) (i : I) : MJStep O I K R :=
  if execQual node.joinqual o i then
    let st := { st with matchedOuter := true, matchedInner := true }
    match node.jointype with
    | .anti => .next { st with joinState := .nextOuter } []
    | .semi => .next { st with joinState := .nextOuter } (node.emit (some o) (some i))
    | _ => .next { st with joinState := .nextInner } (node.emit (some o) (some i))
  else .next { st with joinState := .nextInner } []

/-- The advance of `EXEC_MJ_NEXTINNER`. -/
def nextInnerAdvance (st : MergeJoinState O I K) : MJStep O I K R :=
  let st := { st.fetchInner with matchedInner := false }
  let (result, st) := mjEvalInnerValues node st st.innerTupleSlot
  match result with
  | .matchable =>
    let compareResult := mjCompare node st
    if compareResult = 0 then .next { st with joinState := .joinTuples } []
    else if compareResult < 0 then .next { st with joinState := .nextOuter } []
    else .assertFailed
  | .nonmatchable => .next { st with joinState := .nextOuter } []
  | .endOfJoin => .next { st with innerTupleSlot := none, joinState := .nextOuter } []

/-- The advance of the outer plan in `EXEC_MJ_NEXTOUTER` and in
`EXEC_MJ_SKIPOUTER_ADVANCE`, which differ in where they go with a tuple. -/
def outerAdvance (matchable nonmatchable : MJState) (st : MergeJoinState O I K) :
    MJStep O I K R :=
  let (result, st) := mjEvalOuterValues node { st.fetchOuter with matchedOuter := false }
  match result with
  | .matchable => .next { st with joinState := matchable } []
  | .nonmatchable => .next { st with joinState := nonmatchable } []
  | .endOfJoin =>
    if node.jointype.fillInner && st.innerTupleSlot.isSome then
      .next { st with joinState := .endOuter } []
    else .done

def testOuter (st : MergeJoinState O I K) : MJStep O I K R :=
  let (_, st) := mjEvalInnerValues node st st.markedTupleSlot
  let compareResult := mjCompare node st
  if compareResult = 0 then
    .next { st.restrPos with
      innerTupleSlot := st.markedTupleSlot
      joinState := .joinTuples } []
  else if compareResult > 0 then
    let (result, st) := mjEvalInnerValues node st st.innerTupleSlot
    match result with
    | .matchable => .next { st with joinState := .skipTest } []
    | .nonmatchable => .next { st with joinState := .skipInnerAdvance } []
    | .endOfJoin =>
      if node.jointype.fillOuter then .next { st with joinState := .endInner } [] else .done
  else .assertFailed

def skipTest (st : MergeJoinState O I K) : MJStep O I K R :=
  let compareResult := mjCompare node st
  if compareResult = 0 then
    .next { st.markPos with
      markedTupleSlot := st.innerTupleSlot
      joinState := .joinTuples } []
  else if compareResult < 0 then .next { st with joinState := .skipOuterAdvance } []
  else .next { st with joinState := .skipInnerAdvance } []

/-- The advance of `EXEC_MJ_SKIPINNER_ADVANCE`. -/
def skipInnerAdvance (st : MergeJoinState O I K) : MJStep O I K R :=
  let st := if node.extraMarks then st.markPos else st
  let st := { st.fetchInner with matchedInner := false }
  let (result, st) := mjEvalInnerValues node st st.innerTupleSlot
  match result with
  | .matchable => .next { st with joinState := .skipTest } []
  | .nonmatchable => .next { st with joinState := .skipInnerAdvance } []
  | .endOfJoin =>
    if node.jointype.fillOuter && st.outerTupleSlot.isSome then
      .next { st with joinState := .endInner } []
    else .done

/-- The advance of `EXEC_MJ_ENDOUTER`. -/
def endOuterAdvance (st : MergeJoinState O I K) : MJStep O I K R :=
  let st := if node.extraMarks then st.markPos else st
  let st := { st.fetchInner with matchedInner := false }
  if st.innerTupleSlot.isNone then .done else .next st []

/-- The advance of `EXEC_MJ_ENDINNER`. -/
def endInnerAdvance (st : MergeJoinState O I K) : MJStep O I K R :=
  let st := { st.fetchOuter with matchedOuter := false }
  if st.outerTupleSlot.isNone then .done else .next st []

def mjStep (st : MergeJoinState O I K) : MJStep O I K R :=
  match st.joinState with
  | .initializeOuter => initializeOuter node st
  | .initializeInner => initializeInner node st
  | .joinTuples =>
    match st.outerTupleSlot, st.innerTupleSlot with
    | some o, some i => joinTuples node st o i
    | _, _ => .assertFailed
  | .nextInner => fillInnerThen node st (nextInnerAdvance node)
  | .nextOuter => fillOuterThen node st (outerAdvance node .testOuter .nextOuter)
  | .testOuter => testOuter node st
  | .skipTest => skipTest node st
  | .skipOuterAdvance => fillOuterThen node st (outerAdvance node .skipTest .skipOuterAdvance)
  | .skipInnerAdvance => fillInnerThen node st (skipInnerAdvance node)
  | .endOuter =>
    if node.jointype.fillInner then fillInnerThen node st (endOuterAdvance node)
    else .assertFailed
  | .endInner =>
    if node.jointype.fillOuter then fillOuterThen node st endInnerAdvance
    else .assertFailed

/-- The rows `ExecMergeJoin` returns until it returns NULL; `none` when an assertion fails
or `fuel` turns of the loop are not enough. -/
def execMergeJoin : Nat → MergeJoinState O I K → Option (List R)
  | 0, _ => none
  | fuel + 1, st =>
    match mjStep node st with
    | .next st rows => (execMergeJoin fuel st).map (rows ++ ·)
    | .done => some []
    | .assertFailed => none

end PgTuning.Executor
