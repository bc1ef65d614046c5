import Mathlib.Data.List.Sort
import PgTuning.Lib.Attempt

/-!
# The advisor's index objects

The advisor (the Java program in `PostgreSQL_index_tuning`) moves `Index` objects between
configurations. Three notions of sameness are in play, and most of what can go wrong is a confusion
of them:

* *object identity*, which `ArrayList.indexOf`, `contains`, `remove` and `removeAll` use, because
  `Index` overloads `equals` without overriding `Object.equals`;
* `Index.equals`, which compares columns, table and database;
* `Index.compareTo`, which compares the columns only, and which every `TreeSet` uses.

An `Index` carries the fields that never change after construction and a `ref` that tells apart two
objects with the same fields, so identity is Lean's `=`. The fields the advisor mutates, `name` and
`materialized`, live in the connection's state (`Advisor/Connection.lean`). Strings are lists of
UTF-16 code units, the units `String.compareTo` orders by.
-/

namespace PgTuning.Advisor

/-! ## Strings -/

/-- A Java `String`: its UTF-16 code units. -/
abbrev JString := List UInt16

/-- A string literal of the source (all of them are ASCII). -/
def js (cs : List Char) : JString := cs.map fun c => UInt16.ofNat c.toNat

/-- A character of the regular expression class `\s`. -/
def isSpace (c : UInt16) : Bool :=
  c == 0x20 || c == 0x09 || c == 0x0A || c == 0x0B || c == 0x0C || c == 0x0D

def comma : UInt16 := 0x2C

def dot : UInt16 := 0x2E

/-- `String.split` never returns trailing empty strings. -/
def dropTrailingEmpty (pieces : List JString) : List JString :=
  (pieces.reverse.dropWhile (·.isEmpty)).reverse

def splitDots (s : JString) : List JString :=
  if dot ∈ s then dropTrailingEmpty (s.splitOn dot) else [s]

def trimLeft (s : JString) : JString := s.dropWhile isSpace

def trimRight (s : JString) : JString := (s.reverse.dropWhile isSpace).reverse

/-- The pieces after the first comma lose the white space the separator
absorbs: on both sides, except that the text after the last comma keeps its
end. -/
def trimAfterComma : List JString → List JString
  | [] => []
  | [p] => [trimLeft p]
  | p :: ps => trimLeft (trimRight p) :: trimAfterComma ps

def splitCommas (s : JString) : List JString :=
  match s.splitOn comma with
  | p :: q :: ps => dropTrailingEmpty (trimRight p :: trimAfterComma (q :: ps))
  | _ => [s]

/-- `ArrayList.toString` on a list of strings. -/
def listToString (xs : List JString) : JString :=
  js ['['] ++ List.intercalate (js [',', ' ']) xs ++ js [']']

/-- `String.compareTo`: by the first code unit that differs, else by length.
Only the sign of the result is ever used. -/
def compareToString (s t : JString) : Ordering := compare s t

def sortStrings (xs : List JString) : List JString :=
  xs.insertionSort fun s t => (compareToString s t).isLE

/-! ## Index objects -/

/-- The immutable part of an `Index` object. `id`, `table_id` and
`column_indexes` are never read by the advisor. -/
structure Index where
  ref : Nat
  tableName : JString
  columnNames : List JString
  hypothetical : Bool
  dbname : JString
deriving DecidableEq, Repr

instance : LawfulBEq (List Index) := inferInstance

namespace Index

/-- The constructor: the columns are split at the commas and sorted. -/
def new (ref : Nat) (aTableName aColumnNames : JString) (aHypothetical : Bool)
    (aDbname : JString) : Index where
  ref := ref
  tableName := aTableName
  columnNames := sortStrings (splitCommas aColumnNames)
  hypothetical := aHypothetical
  dbname := aDbname

def equals (this x : Index) : Bool :=
  x.columnNames == this.columnNames && x.tableName == this.tableName &&
    x.dbname == this.dbname

/-- `getColumnNames`: the printed list without its brackets (and without any
bracket that occurs in a column name). -/
def getColumnNames (this : Index) : JString :=
  ((listToString this.columnNames).filter (· != 0x5B)).filter (· != 0x5D)

/-- `equals(String, String, String)`: the columns arrive as text and are split,
but not sorted, before the comparison. -/
def equalsNamed (this : Index) (aDbname aTableName aColumnNames : JString) :
    Bool :=
  this.dbname == aDbname && this.tableName == aTableName &&
    this.columnNames == splitCommas aColumnNames

/-- The loop of `compareTo` over columns of lists of the same size. -/
def compareColumns : List JString → List JString → Ordering
  | x :: xs, y :: ys => (compareToString x y).then (compareColumns xs ys)
  | _, _ => .eq

/-- `compareTo`: the number of columns first, then column by column. -/
def compareTo (this o : Index) : Ordering :=
  (compare this.columnNames.length o.columnNames.length).then
    (compareColumns this.columnNames o.columnNames)

/-! ## The order the tree sets use -/

theorem compareColumns_eq_compareLex :
    ∀ xs ys : List JString, xs.length = ys.length →
      compareColumns xs ys = List.compareLex compareToString xs ys := by
  intro xs
  induction xs with
  | nil =>
    intro ys hLen
    cases ys with
    | nil => rfl
    | cons y ys => simp at hLen
  | cons x xs ih =>
    intro ys hLen
    cases ys with
    | nil => simp at hLen
    | cons y ys =>
      have hTail : xs.length = ys.length := by simpa using hLen
      rw [List.compareLex_cons_cons, compareColumns, ih ys hTail]

/-- `compareTo` is the lexicographic order on (number of columns, columns). -/
theorem compareTo_eq_compareLex (a b : Index) :
    compareTo a b =
      compareLex (compareOn fun ix : Index => ix.columnNames.length)
        (fun a b => compare a.columnNames b.columnNames) a b := by
  unfold compareTo compareLex compareOn
  cases hLen : compare a.columnNames.length b.columnNames.length with
  | lt => rfl
  | gt => rfl
  | eq =>
    have h : a.columnNames.length = b.columnNames.length := Nat.compare_eq_eq.mp hLen
    exact compareColumns_eq_compareLex _ _ h

instance : Std.TransCmp compareTo := by
  have h : compareTo =
      compareLex (compareOn fun ix : Index => ix.columnNames.length)
        (compareOn fun ix : Index => ix.columnNames) := by
    funext a b
    exact compareTo_eq_compareLex a b
  rw [h]
  infer_instance

/-- Two indexes are the same to a tree set when their columns agree, whatever
their tables are. -/
theorem compareTo_eq_iff (a b : Index) : compareTo a b = .eq ↔ a.columnNames = b.columnNames := by
  rw [compareTo_eq_compareLex]
  unfold compareLex compareOn
  rw [Ordering.then_eq_eq, Std.LawfulEqOrd.compare_eq_iff_eq, Std.LawfulEqOrd.compare_eq_iff_eq]
  constructor
  · exact fun h => h.2
  · intro h
    exact ⟨congrArg List.length h, h⟩

theorem equals_iff (a b : Index) :
    equals a b ↔ a.columnNames = b.columnNames ∧
      a.tableName = b.tableName ∧ a.dbname = b.dbname := by
  unfold equals
  simp only [Bool.and_eq_true, beq_iff_eq]
  constructor
  · rintro ⟨⟨hc, ht⟩, hd⟩
    exact ⟨hc.symm, ht.symm, hd.symm⟩
  · rintro ⟨hc, ht, hd⟩
    exact ⟨⟨hc.symm, ht.symm⟩, hd.symm⟩

/-- `Index.equals` is finer than the order of the tree sets. -/
theorem compareTo_eq_of_equals {a b : Index} (h : equals a b) : compareTo a b = .eq :=
  (compareTo_eq_iff a b).mpr ((equals_iff a b).mp h).1

end Index

end PgTuning.Advisor
