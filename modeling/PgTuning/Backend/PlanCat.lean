import PgTuning.Backend.Catalog
import PgTuning.Lib.Outcome
import Mathlib.Data.Rat.Floor

/-!
# What the planner learns about a table

`get_relation_info` collects the indexes of a table for the planner. The flag it is given lets
hypothetical indexes in; a hypothetical index has no pages to count, so its size is estimated from
the widths of its columns.

The sizes of tables and of real indexes come from the storage manager and are parameters
(`PlannerEnv`). A tuple count is a whole number, as `estimate_rel_size` rounds it. The C code
computes in `double` and converts back to `int`; a quotient outside that range becomes the least
`int`, as on the usual hardware. The entries that are functions of the access method alone are left
out, and so is the renumbering of the variables in index expressions.
-/

namespace PgTuning.Backend

open PgTuning.Lib.Outcome List

/-- `TransactionIdPrecedes`: normal identifiers are compared modulo `2 ^ 32`. -/
def transactionIdPrecedes (id1 id2 : UInt32) : Bool :=
  if id1 < 3 || id2 < 3 then id1 < id2
  else (id1 - id2).toNat ≥ 2 ^ 31

/-! ## The size of a hypothetical index -/

def varhdrsz : Int := 4

/-- The width of `numeric`, from the precision and scale packed in its modifier. -/
def numericSize (atttypmod : Int) : Int :=
  let tmpTypmod := atttypmod - varhdrsz
  let precision := tmpTypmod / 2 ^ 16 % 2 ^ 16
  let scale := tmpTypmod % 2 ^ 16
  if precision ≤ 4 then 2
  else if precision ≤ 9 then 4
  else if precision ≤ 18 then 8
  else 4 + 2 * ((precision - scale + 3).tdiv 4 + (scale + 3).tdiv 4 + 1)

/-- The switch over `rd_opcintype`. -/
def columnSize (column : IndexColumn) : Int :=
  match column.opcintype with
  | .bit => column.atttypmod.tdiv 8
  | .bool | .float4 => 4
  | .int2 => 2
  | .int4 => column.attlen
  | .float8 | .int8 => 8
  | .bpchar | .char | .varchar | .name | .text => column.atttypmod - varhdrsz
  | .numeric => numericSize column.atttypmod
  | .time | .abstime | .date | .reltime => 8
  | .interval | .tinterval | .timetz => 12
  | .timestamp | .timestamptz => 8
  | .varbit => column.atttypmod.tdiv 8
  | .other _ => 4

def entrySize (columns : List IndexColumn) : Int :=
  let totalColumnSize := (columns.map columnSize).sum
  let keySize := (columns.length : Int) * 4 + totalColumnSize
  keySize + 9 + 4

/-- The conversion of a `double` to `int`; `none` is an infinity or not a number. -/
def toInt32 : Option Int → Int
  | some n => if -2 ^ 31 ≤ n ∧ n < 2 ^ 31 then n else -2 ^ 31
  | none => -2 ^ 31

/-- `leaves`, stored in the unsigned field `pages`. -/
def hypotheticalPages (columns : List IndexColumn) (tuples : Nat) :
    Except Error Nat := do
  rejectIf (entrySize columns == 0) ⟨.floatingPointException, "floating-point exception"⟩
  let pagents := (8172 : Int).tdiv (entrySize columns)
  let leaves := toInt32
    (if pagents = 0 then none else some ⌈(tuples : ℚ) / (pagents : ℚ)⌉)
  return (leaves % 2 ^ 32).toNat

/-! ## Index information -/

structure PlannerEnv where
  recoveryInProgress : Bool
  ignoreSystemIndexes : Bool
  transactionXmin : UInt32
  /-- `estimate_rel_size`: pages and tuples of a table or of a partial index. -/
  estimateRelSize : Oid → Nat × Nat
  numberOfBlocks : Oid → Nat

structure IndexOptInfo where
  indexoid : Oid
  pages : Nat
  tuples : Nat
  indexkeys : List Int
  indexcollations : List Oid
  opfamily : List Oid
  opcintype : List ColumnType
  sortopfamily : Option (List Oid)
  reverseSort : Option (List Bool)
  nullsFirst : Option (List Bool)
  relam : AccessMethod
  indexprs : List String
  indpred : List String
  unique : Bool
  immediate : Bool
  hypothetical : Bool
deriving DecidableEq, Repr

/-- The part of a `RelOptInfo` that `get_relation_info` fills in, with the mark it
may set on the plan. -/
structure RelationInfo where
  pages : Nat
  tuples : Nat
  indexlist : List IndexOptInfo
  transientPlan : Bool
deriving DecidableEq, Repr

variable (env : PlannerEnv)

/-- Pages and tuples of an index on a table of `tuples` rows. -/
def indexSize (tuples : Nat) (index : PgIndex) : Except Error (Nat × Nat) :=
  if index.indishypothetical then do
    let leaves ← hypotheticalPages index.columns tuples
    return (leaves, tuples)
  else if index.indpred.isEmpty then
    .ok (env.numberOfBlocks index.indexrelid, tuples)
  else
    let size := env.estimateRelSize index.indexrelid
    .ok (size.1, if size.2 > tuples then tuples else size.2)

/-- The entry for one index. Only a btree is ordered. -/
def indexOptInfo (tuples : Nat) (index : PgIndex) : Except Error IndexOptInfo := do
  let size ← indexSize env tuples index
  let ordered := index.relam == .btree
  return {
    indexoid := index.indexrelid
    pages := size.1
    tuples := size.2
    indexkeys := index.columns.map IndexColumn.attnum
    indexcollations := index.columns.map IndexColumn.collation
    opfamily := index.columns.map IndexColumn.opfamily
    opcintype := index.columns.map IndexColumn.opcintype
    sortopfamily :=
      if ordered then some (index.columns.map IndexColumn.opfamily) else none
    reverseSort :=
      if ordered then some (index.columns.map IndexColumn.descending) else none
    nullsFirst :=
      if ordered then some (index.columns.map IndexColumn.nullsFirst) else none
    relam := index.relam
    indexprs := index.indexprs
    indpred := index.indpred
    unique := index.indisunique
    immediate := index.indimmediate
    hypothetical := index.indishypothetical }

/-- An index that is valid but too new for some snapshot. -/
def PgIndex.tooNew (index : PgIndex) : Bool :=
  index.indcheckxmin && !transactionIdPrecedes index.xmin env.transactionXmin

/-- One turn of the loop over the index list: the entries collected so far, newest
first, and the mark on the plan. -/
def considerIndex (tuples : Nat) (hypothetical : Bool)
    (acc : List IndexOptInfo × Bool) (index : PgIndex) :
    Except Error (List IndexOptInfo × Bool) :=
  if !index.indisvalid then .ok acc
  else if hypothetical || !index.indishypothetical then
    if index.tooNew env then .ok (acc.1, true)
    else do
      let info ← indexOptInfo env tuples index
      return (info :: acc.1, acc.2)
  else .ok acc

/-- Whether the planner looks at the indexes of a table at all. -/
def hasIndex (relation : PgClass) (inhparent : Bool) : Bool :=
  if inhparent || (env.ignoreSystemIndexes && relation.isSystem) then false
  else relation.relhasindex

/-- `get_relation_info`; `transientPlan` is the mark before the call. -/
def getRelationInfo (cat : Catalog) (transientPlan : Bool)
    (relationObjectId : Oid) (inhparent hypothetical : Bool) :
    Except Error RelationInfo :=
  match cat.pgClass.get? relationObjectId with
  | none => .error ⟨.internalError,
      "could not open relation with OID " ++ toString relationObjectId⟩
  | some relation => do
      rejectIf (!relation.needsWAL && env.recoveryInProgress) ⟨.featureNotSupported,
        "cannot access temporary or unlogged relations during recovery"⟩
      let size := if inhparent then (0, 0) else env.estimateRelSize relationObjectId
      let found ←
        if hasIndex env relation inhparent then
          (cat.relationGetIndexList relationObjectId).foldlM
            (considerIndex env size.2 hypothetical) ([], transientPlan)
        else .ok ([], transientPlan)
      return ⟨size.1, size.2, found.1, found.2⟩

/-! ## Without the flag -/

def Catalog.withoutHypothetical (cat : Catalog) : Catalog :=
  { cat with pgIndex := cat.pgIndex.filter fun index => !index.indishypothetical }

/-- The indexes of a table in the reduced catalog, in their old order. -/
theorem relationGetIndexList_withoutHypothetical (cat : Catalog) (relid : Oid) :
    cat.withoutHypothetical.relationGetIndexList relid =
      (cat.relationGetIndexList relid).filter fun index => !index.indishypothetical := by
  show (cat.pgIndex.rows.filter _).filter _ = (cat.pgIndex.rows.filter _).filter _
  rw [filter_comm]

variable (env : PlannerEnv) (tuples : Nat) (acc : List IndexOptInfo × Bool) {index : PgIndex}

theorem considerIndex_hypothetical (h : index.indishypothetical) :
    considerIndex env tuples false acc index = .ok acc := by
  unfold considerIndex
  rw [h]
  cases index.indisvalid <;> rfl

/-- Removing the hypothetical indexes from the list changes nothing in the loop:
each of them leaves the entries and the mark as they are. -/
theorem foldlM_considerIndex_filter (indexes : List PgIndex) :
    ∀ acc : List IndexOptInfo × Bool,
      (indexes.filter fun index => !index.indishypothetical).foldlM
          (considerIndex env tuples false) acc =
        indexes.foldlM (considerIndex env tuples false) acc := by
  induction indexes with
  | nil =>
    intro acc
    rfl
  | cons index indexes ih =>
    intro acc
    rw [foldlM_cons]
    cases h : index.indishypothetical with
    | true =>
      have hDrop : ¬ (!index.indishypothetical) := by simp [h]
      rw [filter_cons, if_neg hDrop, considerIndex_hypothetical env tuples acc h]
      exact ih acc
    | false =>
      have hKeep : (!index.indishypothetical) := by simp [h]
      rw [filter_cons, if_pos hKeep, foldlM_cons]
      congr 1
      funext acc'
      exact ih acc'

/-- Without the flag the planner sees the catalog as if it held no hypothetical
index: the same entries in the same order, the same mark, the same errors. -/
theorem getRelationInfo_withoutHypothetical (cat : Catalog)
    (transientPlan : Bool) (relid : Oid) (inhparent : Bool) :
    getRelationInfo env cat.withoutHypothetical transientPlan relid inhparent false =
      getRelationInfo env cat transientPlan relid inhparent false := by
  unfold getRelationInfo
  rw [relationGetIndexList_withoutHypothetical]
  simp only [foldlM_considerIndex_filter]
  rfl

/-! ## With the flag -/

/-- An index the planner may use, once hypothetical ones are let in. -/
def PgIndex.Usable (index : PgIndex) : Prop :=
  index.indisvalid = true ∧ index.tooNew env = false

/-- The entry was made for this index. -/
def IndexOptInfo.IsFor (info : IndexOptInfo) (index : PgIndex) : Prop :=
  info.indexoid = index.indexrelid ∧ info.hypothetical = index.indishypothetical

theorem indexOptInfo_isFor (index : PgIndex) :
    Yields (fun info => info.IsFor index) (indexOptInfo env tuples index) := by
  apply Yields.after
  intro size
  exact yields_pure ⟨rfl, rfl⟩

theorem considerIndex_keeps (hypothetical : Bool)
    (acc : List IndexOptInfo × Bool) (index : PgIndex) :
    Yields (fun found => ∀ info ∈ acc.1, info ∈ found.1)
      (considerIndex env tuples hypothetical acc index) := by
  have hSame (mark : Bool) : Yields (fun found => ∀ info ∈ acc.1, info ∈ found.1)
      (.ok (acc.1, mark) : Except Error (List IndexOptInfo × Bool)) := by
    apply yields_pure
    intro info h
    exact h
  apply Yields.ite
  · exact hSame acc.2
  · apply Yields.ite
    · apply Yields.ite
      · exact hSame true
      · apply Yields.after
        intro info
        apply yields_pure
        intro info' h
        exact mem_cons_of_mem info h
    · exact hSame acc.2

theorem considerIndex_adds (hUsable : index.Usable env) :
    Yields (fun found => ∃ info ∈ found.1, info.IsFor index)
      (considerIndex env tuples true acc index) := by
  unfold considerIndex
  rw [hUsable.1, hUsable.2]
  apply (indexOptInfo_isFor env tuples index).bind
  intro info hInfo
  exact yields_pure ⟨info, mem_cons_self, hInfo⟩

/-- With the flag the loop leaves an entry for every usable index. -/
theorem foldlM_considerIndex_adds (indexes : List PgIndex) :
    ∀ acc : List IndexOptInfo × Bool,
      Yields (fun found => (∀ info ∈ acc.1, info ∈ found.1) ∧
          ∀ index ∈ indexes, index.Usable env → ∃ info ∈ found.1, info.IsFor index)
        (indexes.foldlM (considerIndex env tuples true) acc) := by
  induction indexes with
  | nil =>
    intro acc
    apply yields_pure
    exact ⟨fun _ h => h, fun _ h => absurd h not_mem_nil⟩
  | cons index indexes ih =>
    intro acc
    refine ⟨fun found hFound => ?_⟩
    obtain ⟨next, hNext, hRest⟩ := bind_eq_ok.mp hFound
    obtain ⟨hKept, hAdded⟩ := (ih next).ok found hRest
    constructor
    · intro info hInfo
      exact hKept info ((considerIndex_keeps env tuples true acc index).ok _ hNext info hInfo)
    · intro index' hMem hUsable
      rcases mem_cons.mp hMem with rfl | hMem
      · obtain ⟨info, hInfo, hFor⟩ := (considerIndex_adds env tuples acc hUsable).ok _ hNext
        exact ⟨info, hKept info hInfo, hFor⟩
      · exact hAdded index' hMem hUsable

/-- The planner considers every usable index of the table, the hypothetical ones
included. -/
def ConsidersAll (cat : Catalog) (relid : Oid) (info : RelationInfo) : Prop :=
  ∀ relation, cat.pgClass.get? relid = some relation →
    hasIndex env relation false = true →
    ∀ index ∈ cat.relationGetIndexList relid, index.Usable env →
      ∃ entry ∈ info.indexlist, entry.IsFor index

theorem getRelationInfo_considersAll (cat : Catalog) (transientPlan : Bool) (relid : Oid) :
    Yields (ConsidersAll env cat relid)
      (getRelationInfo env cat transientPlan relid false true) := by
  refine ⟨fun info hInfo relation hRelation hHas index hIndex hUsable => ?_⟩
  unfold getRelationInfo at hInfo
  rw [hRelation] at hInfo
  simp only [hHas] at hInfo
  obtain ⟨-, -, hInfo⟩ := bind_eq_ok.mp hInfo
  obtain ⟨found, hFound, hInfo⟩ := bind_eq_ok.mp hInfo
  cases hInfo
  exact ((foldlM_considerIndex_adds env _ _ _).ok found hFound).2 index hIndex hUsable

end PgTuning.Backend
