import PgTuning.Backend.PlanCat

/-!
# The size estimate of a hypothetical index

`get_relation_info` reads the width of a column off its type modifier, adds up the widths, and
divides twice: a page by the entry size, the rows by the entries of a page. The modifiers are packed
by the types themselves (`numerictypmodin`, `anychar_typmodin`, `anybit_typmodin`), and a column
declared without one has the modifier `-1`, which is unpacked like any other: a `text` column
without a length counts for `-5` bytes and a `numeric` column for 32774.

A `DeclaredColumn` has a modifier that its type hands out. The estimate is sound exactly when the
bytes charged for the declared columns fill between one byte and one page, and the leaves fit an
`int`.
-/

namespace PgTuning.Backend

open PgTuning.Lib.Outcome List Int

/-! ## Declared columns -/

/-- What is written in parentheses after the type of a column. -/
inductive TypeModifier where
  | unconstrained
  | length (n : Nat)
  | precision (p s : Nat)
  /-- The modifier of a type whose width does not depend on it. -/
  | plain (typmod : Int)
deriving DecidableEq, Repr

/-- How the modifier is unpacked. -/
inductive Packing where
  | bits
  | characters
  | decimal
  | fixed (width : Int)
deriving DecidableEq, Repr

def ColumnType.packing : ColumnType → Packing
  | .bit | .varbit => .bits
  | .bpchar | .char | .varchar | .name | .text => .characters
  | .numeric => .decimal
  | .bool | .float4 | .int4 | .other _ => .fixed 4
  | .int2 => .fixed 2
  | .float8 | .int8 | .time | .abstime | .date | .reltime => .fixed 8
  | .timestamp | .timestamptz => .fixed 8
  | .interval | .tinterval | .timetz => .fixed 12

/-- The modifiers the types hand out: lengths up to `MaxAttrSize`, precisions up to
`NUMERIC_MAX_PRECISION`. -/
def Packing.Allows : Packing → TypeModifier → Prop
  | .bits, .length n => 1 ≤ n ∧ n ≤ 83886080
  | .characters, .length n => 1 ≤ n ∧ n ≤ 10485760
  | .decimal, .precision p s => 1 ≤ p ∧ p ≤ 1000 ∧ s ≤ p
  | .fixed _, .plain _ => True
  | _, .unconstrained => True
  | _, _ => False

/-- The `atttypmod` made of it. -/
def Packing.typmod : Packing → TypeModifier → Int
  | .characters, .length n => n + varhdrsz
  | _, .length n => n
  | _, .precision p s => p * 2 ^ 16 + s + varhdrsz
  | _, .plain typmod => typmod
  | _, .unconstrained => -1

/-- A column as `CREATE TABLE` stores it. -/
structure DeclaredColumn where
  column : IndexColumn
  modifier : TypeModifier
  allowed : column.opcintype.packing.Allows modifier
  packed : column.atttypmod = column.opcintype.packing.typmod modifier
  attlen : column.opcintype = .int4 → column.attlen = 4

/-! ## The bytes charged for a column -/

/-- The bytes of a declared decimal number. -/
def decimalCharge (p s : Nat) : Int :=
  if p ≤ 4 then 2
  else if p ≤ 9 then 4
  else if p ≤ 18 then 8
  else 4 + 2 * (((p - s + 3) / 4 + (s + 3) / 4 + 1 : Nat) : Int)

/-- The bytes charged for a column of that declaration. -/
def Packing.charge : Packing → TypeModifier → Int
  | .bits, .length n => (n / 8 : Nat)
  | .bits, _ => 0
  | .characters, .length n => n
  | .characters, _ => -5
  | .decimal, .precision p s => decimalCharge p s
  | .decimal, _ => 32774
  | .fixed width, _ => width

def DeclaredColumn.charge (d : DeclaredColumn) : Int :=
  d.column.opcintype.packing.charge d.modifier

/-- Precision and scale come back out of the packed modifier. -/
theorem numericSize_precision {p s : Nat} (hp : p ≤ 1000) (hs : s ≤ p) :
    numericSize (p * 2 ^ 16 + s + varhdrsz) = decimalCharge p s := by
  have hPrecision : ((p : Int) * 2 ^ 16 + s + varhdrsz - varhdrsz) / 2 ^ 16 % 2 ^ 16 = p := by
    omega
  have hScale : ((p : Int) * 2 ^ 16 + s + varhdrsz - varhdrsz) % 2 ^ 16 = s := by
    omega
  unfold numericSize decimalCharge
  simp only [hScale]
  rw [tdiv_eq_ediv_of_nonneg (by omega), tdiv_eq_ediv_of_nonneg (by omega)]
  split_ifs <;> omega

/-- The switch over the types unpacks what the types packed. -/
theorem columnSize_eq_charge (d : DeclaredColumn) : columnSize d.column = d.charge := by
  obtain ⟨column, modifier, hAllowed, hPacked, hLen⟩ := d
  unfold DeclaredColumn.charge columnSize
  cases hType : column.opcintype <;> rw [hType] at hAllowed hPacked <;>
    cases modifier <;>
    first
    | rfl
    | exact hLen hType
    | exact absurd hAllowed id
    | skip
  all_goals
    rw [hPacked]
  all_goals first
    | rfl
    | exact bitSize_length _
    | exact numericSize_precision hAllowed.2.1 hAllowed.2.2
    | exact Int.add_sub_cancel _ _

theorem charge_bounds (d : DeclaredColumn) : -5 ≤ d.charge ∧ d.charge ≤ 10485760 := by
  obtain ⟨column, modifier, hAllowed, -, -⟩ := d
  unfold DeclaredColumn.charge
  cases hPacking : column.opcintype.packing with
  | bits =>
    rw [hPacking] at hAllowed
    cases modifier with
    | length n =>
      have hMax : n ≤ 83886080 := hAllowed.2
      show -5 ≤ ((n / 8 : Nat) : Int) ∧ ((n / 8 : Nat) : Int) ≤ 10485760
      omega
    | _ => simp [Packing.charge]
  | characters =>
    rw [hPacking] at hAllowed
    cases modifier with
    | length n =>
      have hMax : n ≤ 10485760 := hAllowed.2
      show -5 ≤ (n : Int) ∧ (n : Int) ≤ 10485760
      omega
    | _ => simp [Packing.charge]
  | decimal =>
    rw [hPacking] at hAllowed
    cases modifier with
    | precision p s =>
      obtain ⟨-, hp, hs⟩ := hAllowed
      show -5 ≤ decimalCharge p s ∧ decimalCharge p s ≤ 10485760
      unfold decimalCharge
      split_ifs <;> omega
    | _ => simp [Packing.charge]
  | fixed width =>
    have hWidth : -5 ≤ width ∧ width ≤ 10485760 := by
      cases hType : column.opcintype <;> rw [hType] at hPacking <;> cases hPacking <;>
        decide
    exact hWidth

/-! ## The estimate -/

def InIntRange (n : Int) : Prop := -2 ^ 31 ≤ n ∧ n < 2 ^ 31

/-- `pagents`, the entries of a page. -/
def pagents (columns : List IndexColumn) : Int := (8172 : Int).tdiv (entrySize columns)

/-- The leaves the estimate is meant to give. -/
def leavesNeeded (columns : List IndexColumn) (tuples : Nat) : Int :=
  ⌈(tuples : ℚ) / (pagents columns : ℚ)⌉

/-- Every step of the estimate is well defined, and it gives the pages needed. -/
structure SizeEstimated (columns : List IndexColumn) (tuples : Nat) : Prop where
  /-- `totalcolumnsize` after every turn of the loop over the columns. -/
  total : ∀ k, InIntRange ((columns.take k).map columnSize).sum
  entry : InIntRange (entrySize columns) ∧ 0 < entrySize columns
  perPage : 1 ≤ pagents columns
  leaves : InIntRange (leavesNeeded columns tuples)
  /-- `BlockNumber` is an `unsigned int`. -/
  pages : ∃ pages, hypotheticalPages columns tuples = .ok pages ∧
    (pages : Int) = leavesNeeded columns tuples ∧ pages < 2 ^ 32

/-- The bytes charged for an entry of an index on these columns. -/
def chargedBytes (ds : List DeclaredColumn) : Int :=
  13 + (ds.map fun d => 4 + d.charge).sum

variable (ds : List DeclaredColumn)

theorem sum_columnSize :
    ((ds.map DeclaredColumn.column).map columnSize).sum = (ds.map DeclaredColumn.charge).sum := by
  rw [map_map]
  congr 1
  apply map_congr_left
  intro d _
  exact columnSize_eq_charge d

theorem entrySize_eq_chargedBytes : entrySize (ds.map DeclaredColumn.column) = chargedBytes ds := by
  have hSum : (ds.map fun d => 4 + d.charge).sum =
      (ds.length : Int) * 4 + (ds.map DeclaredColumn.charge).sum := by
    induction ds with
    | nil => rfl
    | cons d ds ih =>
      simp only [map_cons, sum_cons, length_cons, ih]
      push_cast
      ring
  unfold entrySize chargedBytes
  rw [sum_columnSize, length_map, hSum]
  ring

/-- The widths of the columns of one index do not leave the range of an `int`. -/
theorem sum_charge_bounds :
    -5 * (ds.length : Int) ≤ (ds.map DeclaredColumn.charge).sum ∧
      (ds.map DeclaredColumn.charge).sum ≤ 10485760 * (ds.length : Int) := by
  induction ds with
  | nil => simp
  | cons d ds ih =>
    have hd := charge_bounds d
    simp only [map_cons, sum_cons, length_cons]
    omega

theorem total_inIntRange {ds : List DeclaredColumn} (h : ds.length ≤ 32) (k : Nat) :
    InIntRange (((ds.map DeclaredColumn.column).take k).map columnSize).sum := by
  rw [← map_take, sum_columnSize]
  have hBounds := sum_charge_bounds (ds.take k)
  have hLen : (ds.take k).length ≤ 32 := by
    rw [length_take]
    omega
  unfold InIntRange
  omega

theorem pagents_eq (columns : List IndexColumn) : pagents columns = 8172 / entrySize columns :=
  tdiv_eq_ediv_of_nonneg (by decide)

variable {columns : List IndexColumn}

theorem one_le_pagents_iff (h : 0 < entrySize columns) :
    1 ≤ pagents columns ↔ entrySize columns ≤ 8172 := by
  rw [pagents_eq, Int.le_ediv_iff_mul_le h, one_mul]

/-- The leaves fit an `int` as long as the rows do not outnumber the entries of
`2 ^ 31 - 1` pages. -/
theorem leavesNeeded_lt_iff (h : 1 ≤ pagents columns) (tuples : Nat) :
    leavesNeeded columns tuples < 2 ^ 31 ↔
      (tuples : Int) ≤ (2 ^ 31 - 1) * pagents columns := by
  have hPos : (0 : ℚ) < (pagents columns : ℚ) := by
    have hOne : 0 < pagents columns := by omega
    exact_mod_cast hOne
  have hLe : leavesNeeded columns tuples < 2 ^ 31 ↔
      leavesNeeded columns tuples ≤ 2 ^ 31 - 1 := by omega
  rw [hLe, leavesNeeded, ceil_le, div_le_iff₀ hPos]
  constructor
  · intro hRows
    exact_mod_cast hRows
  · intro hRows
    exact_mod_cast hRows

theorem leavesNeeded_nonneg (h : 1 ≤ pagents columns)
    (tuples : Nat) : 0 ≤ leavesNeeded columns tuples := by
  apply ceil_nonneg
  apply div_nonneg
  · exact Nat.cast_nonneg tuples
  · have hNonneg : 0 ≤ pagents columns := by omega
    exact_mod_cast hNonneg

/-- Nothing is lost in the conversions when the leaves fit an `int`. -/
theorem hypotheticalPages_of_fits {tuples : Nat} (hEntry : 0 < entrySize columns)
    (hPage : 1 ≤ pagents columns) (hLeaves : leavesNeeded columns tuples < 2 ^ 31) :
    hypotheticalPages columns tuples = .ok (leavesNeeded columns tuples).toNat := by
  have hNonneg := leavesNeeded_nonneg hPage tuples
  have hNonzero : (entrySize columns == 0) = false := by
    rw [beq_eq_false_iff_ne]
    omega
  have hConv : toInt32 (some (leavesNeeded columns tuples)) =
      leavesNeeded columns tuples :=
    if_pos ⟨by omega, hLeaves⟩
  have hPages : hypotheticalPages columns tuples =
      .ok (toInt32 (if pagents columns = 0 then none
        else some (leavesNeeded columns tuples)) % 2 ^ 32).toNat := by
    unfold hypotheticalPages
    rw [hNonzero]
    rfl
  rw [hPages, if_neg (by omega), hConv, emod_eq_of_lt hNonneg (by omega)]

/-- **The estimate is well defined exactly when** the entry takes at least a byte and
at most a page, and the leaves fit an `int`. -/
theorem sizeEstimated_iff (ds : List DeclaredColumn) (hCount : ds.length ≤ 32) (tuples : Nat) :
    SizeEstimated (ds.map DeclaredColumn.column) tuples ↔
      1 ≤ chargedBytes ds ∧ chargedBytes ds ≤ 8172 ∧
        (tuples : Int) ≤ (2 ^ 31 - 1) * (8172 / chargedBytes ds) := by
  rw [← entrySize_eq_chargedBytes]
  constructor
  · intro h
    have hEntry := h.entry.2
    have hRows := (leavesNeeded_lt_iff h.perPage tuples).mp h.leaves.2
    rw [pagents_eq] at hRows
    exact ⟨hEntry, (one_le_pagents_iff hEntry).mp h.perPage, hRows⟩
  · rintro ⟨hEntry, hFits, hRows⟩
    have hPage := (one_le_pagents_iff hEntry).mpr hFits
    rw [← pagents_eq] at hRows
    have hLeaves := (leavesNeeded_lt_iff hPage tuples).mpr hRows
    have hNonneg := leavesNeeded_nonneg hPage tuples
    refine ⟨total_inIntRange hCount, ⟨⟨by omega, by omega⟩, hEntry⟩, hPage,
      ⟨by omega, hLeaves⟩, _, hypotheticalPages_of_fits hEntry hPage hLeaves, ?_, ?_⟩
    · exact toNat_of_nonneg hNonneg
    · omega

def intKey : DeclaredColumn where
  column := ⟨1, 0, 1976, .int4, true, -1, 4, false, false⟩
  modifier := .unconstrained
  allowed := trivial
  packed := rfl
  attlen := fun _ => rfl

/-- A million rows on an `int4` key. -/
theorem sizeEstimated_intKey : [intKey].length ≤ 32 ∧
    SizeEstimated ([intKey].map DeclaredColumn.column) 1000000 :=
  ⟨by decide, (sizeEstimated_iff [intKey] (by decide) 1000000).mpr (by decide)⟩

def textKey : DeclaredColumn where
  column := ⟨1, 100, 1994, .text, true, -1, -1, false, false⟩
  modifier := .unconstrained
  allowed := trivial
  packed := rfl
  attlen := fun h => nomatch h

/-- Thirteen `text` columns are charged nothing at all: the page is divided by zero. -/
theorem thirteen_textKeys_divide_by_zero :
    hypotheticalPages (replicate 13 textKey.column) 1000 =
        .error ⟨.floatingPointException, "floating-point exception"⟩ ∧
      ¬ SizeEstimated (replicate 13 textKey.column) 1000 := by
  have hZero : entrySize (replicate 13 textKey.column) = 0 := by decide
  constructor
  · unfold hypotheticalPages
    rfl
  · intro h
    have hPos := h.entry.2
    omega

end PgTuning.Backend
