import Mathlib.Algebra.BigOperators.Group.List.Basic
import Mathlib.Algebra.Order.Group.Multiset

/-!
# Joins of two inputs

The join types of the executor and, for each of them, the rows of the relational join: the matched
pairs, and the rows of either side that match nothing, extended with nulls. `emit` is what the node
makes of a pair that passes the other quals; a missing side stands for a row of nulls.

The second half splits the rows of a join, as a multiset, into what each outer row and each inner
row contributes; a join algorithm is judged by what it has left to emit.
-/

namespace PgTuning.Executor

open Bool List

inductive JoinType where
  | inner
  | left
  | right
  | full
  | semi
  | anti
  deriving DecidableEq, Repr

namespace JoinType

/-- Outer rows without a match are null-extended. -/
def fillOuter : JoinType → Bool
  | .left | .full | .anti => true
  | _ => false

/-- Inner rows without a match are null-extended. -/
def fillInner : JoinType → Bool
  | .right | .full => true
  | _ => false

end JoinType

variable {O I R : Type} {α : Type}

section Relational

variable (on : O → I → Bool) (emit : Option O → Option I → List R) (os : List O) (is : List I)

/-- The rows of the matched pairs. -/
def matchedRows : List R :=
  os.flatMap fun o => (is.filter fun i => on o i).flatMap fun i => emit (some o) (some i)

/-- The null-extended rows of the outer side. -/
def unmatchedOuter : List R :=
  (os.filter fun o => !is.any fun i => on o i).flatMap fun o => emit (some o) none

/-- The null-extended rows of the inner side. -/
def unmatchedInner : List R :=
  (is.filter fun i => !os.any fun o => on o i).flatMap fun i => emit none (some i)

/-- The outer rows that have a match, each of them once. -/
def semiRows : List R :=
  (os.filter fun o => is.any fun i => on o i).flatMap fun o => emit (some o) none

def relationalJoin : JoinType → List R
  | .inner => matchedRows on emit os is
  | .left => matchedRows on emit os is ++ unmatchedOuter on emit os is
  | .right => matchedRows on emit os is ++ unmatchedInner on emit os is
  | .full => matchedRows on emit os is ++ unmatchedOuter on emit os is ++
      unmatchedInner on emit os is
  | .semi => semiRows on emit os is
  | .anti => unmatchedOuter on emit os is

end Relational

/-! ## What each row contributes -/

/-- A join: its type, the pairs that match, and the rows made of a pair. -/
structure Join (O I R : Type) where
  jointype : JoinType
  on : O → I → Bool
  emit : Option O → Option I → List R

namespace Join

variable (j : Join O I R)

/-- The rows an outer row makes with the inner rows it matches. -/
def pairRows (o : O) (is : List I) : Multiset R :=
  match j.jointype with
  | .semi => if is.any (j.on o) then ↑(j.emit (some o) none) else 0
  | .anti => 0
  | _ => (is.map fun i => if j.on o i then (↑(j.emit (some o) (some i)) : Multiset R) else 0).sum

/-- The null-extended row of an outer row. -/
def outerFill (o : O) : Multiset R :=
  if j.jointype.fillOuter then ↑(j.emit (some o) none) else 0

/-- All rows of an outer row: those of its pairs, and the null-extended one if it has
no match, in `is` or earlier. -/
def outerRows (o : O) (is : List I) (matched : Bool) : Multiset R :=
  j.pairRows o is + if matched || is.any (j.on o) then 0 else j.outerFill o

/-- The null-extended row of an inner row. -/
def innerFillRow (i : I) : Multiset R :=
  if j.jointype.fillInner then ↑(j.emit none (some i)) else 0

/-- The null-extended row of an inner row, unless it has a match in `os`. -/
def innerFill (i : I) (os : List O) : Multiset R :=
  if os.any fun o => j.on o i then 0 else j.innerFillRow i

/-- What the join of two lists has to emit. -/
def todo (os : List O) (is : List I) : Multiset R :=
  (os.map fun o => j.outerRows o is false).sum + (is.map fun i => j.innerFill i os).sum

end Join

/-! ## The contributions make up the join -/

theorem coe_flatMap_filter (p : α → Bool) (f : α → List R) (l : List α) :
    (↑((l.filter p).flatMap f) : Multiset R) =
      (l.map fun a => if p a then (↑(f a) : Multiset R) else 0).sum := by
  induction l with
  | nil => rfl
  | cons a l ih =>
    rw [map_cons, sum_cons, ← ih]
    cases hp : p a with
    | false => rw [filter_cons_of_neg (by simp [hp])]; simp
    | true =>
      rw [filter_cons_of_pos hp, flatMap_cons]
      simp

theorem coe_flatMap (f : α → List R) (l : List α) :
    (↑(l.flatMap f) : Multiset R) = (l.map fun a => (↑(f a) : Multiset R)).sum := by
  simpa using coe_flatMap_filter (fun _ => true) f l

/-- **The rows of the join are what its inputs contribute, row by row.** -/
theorem coe_relationalJoin (j : Join O I R) (os : List O) (is : List I) :
    (↑(relationalJoin j.on j.emit os is j.jointype) : Multiset R) = j.todo os is := by
  obtain ⟨jt, on, emit⟩ := j
  have hMatched : (↑(matchedRows on emit os is) : Multiset R) =
      (os.map fun o =>
        (is.map fun i => if on o i then (↑(emit (some o) (some i)) : Multiset R) else 0).sum).sum := by
    rw [matchedRows, coe_flatMap]
    simp only [coe_flatMap_filter]
  have hOuter : (↑(unmatchedOuter on emit os is) : Multiset R) = (os.map fun o =>
      if is.any fun i => on o i then (0 : Multiset R) else ↑(emit (some o) none)).sum := by
    rw [unmatchedOuter, coe_flatMap_filter]
    simp only [not_eq_true', ← not_eq_true, ite_not]
  have hInner : (↑(unmatchedInner on emit os is) : Multiset R) = (is.map fun i =>
      if os.any fun o => on o i then (0 : Multiset R) else ↑(emit none (some i))).sum := by
    rw [unmatchedInner, coe_flatMap_filter]
    simp only [not_eq_true', ← not_eq_true, ite_not]
  have hSemi : (↑(semiRows on emit os is) : Multiset R) = (os.map fun o =>
      if is.any fun i => on o i then (↑(emit (some o) none) : Multiset R) else 0).sum := by
    rw [semiRows, coe_flatMap_filter]
  unfold relationalJoin Join.todo Join.outerRows Join.pairRows Join.outerFill Join.innerFill
    Join.innerFillRow JoinType.fillOuter JoinType.fillInner
  cases jt with
  | inner => simp [hMatched]
  | left => simp [← Multiset.coe_add, hMatched, hOuter]
  | right => simp [← Multiset.coe_add, hMatched, hInner]
  | full => simp [← Multiset.coe_add, hMatched, hOuter, hInner, add_assoc]
  | semi => simp [hSemi]
  | anti => simp [hOuter]

/-! ## Contributions of rows that do not match -/

variable {o : O} {i : I} {os : List O} {is : List I} {l : List α}

theorem any_eq_false {p : α → Bool} (h : ∀ a ∈ l, p a = false) : l.any p = false := by
  rw [List.any_eq_false]
  intro a ha
  rw [h a ha]
  exact Bool.false_ne_true

theorem sum_map_congr {f g : α → Multiset R} (h : ∀ a ∈ l, f a = g a) :
    (l.map f).sum = (l.map g).sum := by
  rw [map_congr_left h]

namespace Join

variable (j : Join O I R)

section

variable {j} (hFirst : ∀ i ∈ is, j.on o i = false) (is' : List I)
include hFirst

theorem sum_pairs_append :
    ((is ++ is').map fun i =>
        if j.on o i then (↑(j.emit (some o) (some i)) : Multiset R) else 0).sum =
      (is'.map fun i => if j.on o i then (↑(j.emit (some o) (some i)) : Multiset R) else 0).sum := by
  rw [map_append, sum_append, sum_eq_zero, zero_add]
  exact forall_mem_map.mpr fun i hi => by simp [hFirst i hi]

theorem pairRows_append : j.pairRows o (is ++ is') = j.pairRows o is' := by
  unfold pairRows
  cases j.jointype with
  | semi => dsimp only; rw [any_append, any_eq_false hFirst, Bool.false_or]
  | anti => rfl
  | _ => exact sum_pairs_append hFirst is'

/-- Inner rows that do not match contribute nothing to an outer row. -/
theorem outerRows_append (matched : Bool) :
    j.outerRows o (is ++ is') matched = j.outerRows o is' matched := by
  rw [outerRows, outerRows, pairRows_append hFirst, any_append, any_eq_false hFirst,
    Bool.false_or]

end

theorem outerRows_cons_of_not (h : j.on o i = false) (is : List I) (matched : Bool) :
    j.outerRows o (i :: is) matched = j.outerRows o is matched :=
  outerRows_append (forall_mem_singleton.mpr h) is matched

theorem outerRows_cons_of_on (hOn : j.on o i) (hSemi : j.jointype ≠ .semi)
    (hAnti : j.jointype ≠ .anti) (is : List I) (matched : Bool) :
    j.outerRows o (i :: is) matched = ↑(j.emit (some o) (some i)) + j.outerRows o is true := by
  have hPairs : j.pairRows o (i :: is) = ↑(j.emit (some o) (some i)) + j.pairRows o is := by
    unfold pairRows
    cases hType : j.jointype with
    | semi => exact absurd hType hSemi
    | anti => exact absurd hType hAnti
    | inner | left | right | full => rw [map_cons, sum_cons, if_pos hOn]
  rw [outerRows, outerRows, hPairs, any_cons, hOn]
  simp

theorem outerRows_nil (o : O) (matched : Bool) :
    j.outerRows o [] matched = if matched then 0 else j.outerFill o := by
  have hPairs : j.pairRows o [] = 0 := by
    unfold pairRows
    cases j.jointype <;> rfl
  rw [outerRows, hPairs, zero_add, any_nil, Bool.or_false]

theorem outerRows_unmatched (h : ∀ i ∈ is, j.on o i = false) (matched : Bool) :
    j.outerRows o is matched = if matched then 0 else j.outerFill o := by
  rw [← outerRows_nil j o, ← outerRows_append h [] matched, append_nil]

theorem innerFill_unmatched (h : ∀ o ∈ os, j.on o i = false) :
    j.innerFill i os = j.innerFillRow i := by
  rw [innerFill, any_eq_false h]
  rfl

theorem innerFill_cons_of_not (h : j.on o i = false) (os : List O) :
    j.innerFill i (o :: os) = j.innerFill i os := by
  rw [innerFill, innerFill, any_cons, h, Bool.false_or]

theorem innerFill_cons_of_on (h : j.on o i) (os : List O) : j.innerFill i (o :: os) = 0 := by
  rw [innerFill, any_cons, h]
  rfl

theorem todo_cons_outer (h : ∀ i ∈ is, j.on o i = false) (os : List O) :
    j.todo (o :: os) is = j.outerFill o + j.todo os is := by
  rw [todo, map_cons, outerRows_unmatched j h,
    sum_map_congr fun i hi => innerFill_cons_of_not j (h i hi) os]
  exact add_assoc _ _ _

theorem todo_cons_inner (h : ∀ o ∈ os, j.on o i = false) (is : List I) :
    j.todo os (i :: is) = j.innerFillRow i + j.todo os is := by
  rw [todo, sum_map_congr fun o ho => outerRows_cons_of_not j (h o ho) is false, map_cons,
    innerFill_unmatched j h]
  exact add_left_comm _ _ _

theorem todo_no_outer (h : ∀ o ∈ os, ∀ i ∈ is, j.on o i = false)
    (hFill : j.jointype.fillOuter = false) : j.todo os is = j.todo [] is := by
  induction os with
  | nil => rfl
  | cons o os ih =>
    rw [todo_cons_outer j (h o mem_cons_self),
      ih fun x hx => h x (mem_cons_of_mem o hx), outerFill, hFill]
    exact zero_add _

theorem todo_no_inner (h : ∀ i ∈ is, ∀ o ∈ os, j.on o i = false)
    (hFill : j.jointype.fillInner = false) : j.todo os is = j.todo os [] := by
  induction is with
  | nil => rfl
  | cons i is ih =>
    rw [todo_cons_inner j (h i mem_cons_self),
      ih fun x hx => h x (mem_cons_of_mem i hx), innerFillRow, hFill]
    exact zero_add _

theorem sum_innerFill_of_not_fill (hFill : j.jointype.fillInner = false) (is : List I)
    (os : List O) : (is.map fun i => j.innerFill i os).sum = 0 := by
  simp [innerFill, innerFillRow, hFill]

end Join

end PgTuning.Executor
