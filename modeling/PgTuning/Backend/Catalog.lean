import PgTuning.Backend.ParseNodes
import PgTuning.Lib.Table

/-!
# The system catalogs

The rows of `pg_class`, `pg_index` and `pg_constraint` that the planner and the index commands read.
`PgClass` is a table; the row of an index is joined with what the relation cache keeps beside it
(`relname`, `relam`, the types of the index columns, the `xmin` of the row). All names are in one
schema. Index expressions and predicates are text, as in a `pg_node_tree` column; an index without
them has the empty list.
-/

namespace PgTuning.Backend

open PgTuning.Lib

inductive AccessMethod where
  | btree
  | hash
  | gist
  | gin
deriving DecidableEq, Repr

namespace AccessMethod

def amname : AccessMethod → String
  | btree => "btree"
  | hash => "hash"
  | gist => "gist"
  | gin => "gin"

def amcanunique : AccessMethod → Bool
  | btree => true
  | _ => false

def amcanmulticol : AccessMethod → Bool
  | hash => false
  | _ => true

def amgettuple : AccessMethod → Bool
  | gin => false
  | _ => true

def amclusterable : AccessMethod → Bool
  | btree => true
  | gist => true
  | _ => false

end AccessMethod

/-- The operator-class input types `get_relation_info` tells apart. -/
inductive ColumnType where
  | bit | bool | float4 | int2 | int4 | float8 | int8
  | bpchar | char | varchar | name | text | numeric
  | time | abstime | date | reltime | interval | tinterval | timetz
  | timestamp | timestamptz | varbit
  | other (oid : Oid)
deriving DecidableEq, Repr

/-- A key column of an index. `attnum` is 0 for an expression. -/
structure IndexColumn where
  attnum : Int
  collation : Oid
  opfamily : Oid
  opcintype : ColumnType
  /-- Whether the operator class is the default one of its type. -/
  defaultOpclass : Bool
  atttypmod : Int
  attlen : Int
  descending : Bool
  nullsFirst : Bool
deriving DecidableEq, Repr

structure PgIndex where
  indexrelid : Oid
  relname : String
  indrelid : Oid
  relam : AccessMethod
  columns : List IndexColumn
  indexprs : List String
  indpred : List String
  indisunique : Bool
  indisprimary : Bool
  indisexclusion : Bool
  indimmediate : Bool
  indisclustered : Bool
  indisvalid : Bool
  indcheckxmin : Bool
  indisready : Bool
  indishypothetical : Bool
  xmin : UInt32
deriving DecidableEq, Repr

structure PgClass where
  oid : Oid
  relname : String
  relhasindex : Bool
  isSystem : Bool
  needsWAL : Bool
deriving DecidableEq, Repr

inductive ConstraintType where
  | primary
  | unique
  | exclusion
  | foreign
deriving DecidableEq, Repr

structure PgConstraint where
  oid : Oid
  conname : String
  contype : ConstraintType
  condeferrable : Bool
  condeferred : Bool
  conrelid : Oid
  conindid : Oid
  confrelid : Option Oid
  conkey : List Int
  confkey : List Int
deriving DecidableEq, Repr

structure Catalog where
  pgClass : Table PgClass PgClass.oid
  pgIndex : Table PgIndex PgIndex.indexrelid
  pgConstraint : Table PgConstraint PgConstraint.oid

namespace Catalog

variable (cat : Catalog)

/-- `RelationGetIndexList`: the indexes of a table in the order of their OIDs. -/
def relationGetIndexList (relid : Oid) : List PgIndex :=
  cat.pgIndex.rows.filter fun index => index.indrelid == relid

theorem mem_relationGetIndexList {cat : Catalog} {relid : Oid} {index : PgIndex} :
    index ∈ cat.relationGetIndexList relid ↔
      index ∈ cat.pgIndex.rows ∧ index.indrelid = relid := by
  unfold relationGetIndexList
  rw [List.mem_filter, beq_iff_eq]

def tableNamed (relname : String) : Option PgClass :=
  cat.pgClass.rows.find? fun relation => relation.relname == relname

def indexNamed (relname : String) : Option PgIndex :=
  cat.pgIndex.rows.find? fun index => index.relname == relname

theorem mem_of_indexNamed {cat : Catalog} {relname : String} {index : PgIndex}
    (h : cat.indexNamed relname = some index) : index ∈ cat.pgIndex.rows :=
  List.mem_of_find?_eq_some h

/-- `get_relname_relid` finds something. -/
def relnameInUse (relname : String) : Bool :=
  (cat.tableNamed relname).isSome || (cat.indexNamed relname).isSome

def Unused (oid : Oid) : Prop :=
  cat.pgClass.get? oid = none ∧ cat.pgIndex.get? oid = none ∧
    cat.pgConstraint.get? oid = none

/-- An OID above all in use. -/
def nextOid : Oid :=
  max cat.pgClass.bound (max cat.pgIndex.bound cat.pgConstraint.bound)

theorem nextOid_unused : cat.Unused cat.nextOid := by
  unfold nextOid
  refine ⟨?_, ?_, ?_⟩
  · apply Table.get?_eq_none_of_bound_le
    omega
  · apply Table.get?_eq_none_of_bound_le
    omega
  · apply Table.get?_eq_none_of_bound_le
    omega

end Catalog

end PgTuning.Backend
