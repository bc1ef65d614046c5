import PgTuning.Advisor.Votes

/-!
# The set operations of the master

`Master.intersect`, `union` and `subtract` put lists of indexes into tree sets, which compare by the
columns alone, while `Index.equals` looks at the table and the database too. The operations follow
`equals` exactly on lists in which no two indexes share their columns across tables or databases.
-/

namespace PgTuning.Advisor

open PgTuning.Lib PgTuning.Lib.FirstKept List Index

/-- No two members have the same columns on different tables or databases. -/
def NoNamesakes (xs : List Index) : Prop :=
  ∀ a ∈ xs, ∀ b ∈ xs, a.columnNames = b.columnNames →
    a.tableName = b.tableName ∧ a.dbname = b.dbname

/-- The operations on two lists are those on sets of indexes up to `Index.equals`. -/
structure SetAlgebra (s1 s2 : List Index) : Prop where
  compare : ∀ a ∈ s1 ++ s2, ∀ b ∈ s1 ++ s2,
    Index.compareTo a b = .eq ↔ a.equals b = true
  intersect : ∀ a, a ∈ intersect s1 s2 ↔ a ∈ s1 ∧ ∃ b ∈ s2, a.equals b = true
  subtract : ∀ a, a ∈ subtract s1 s2 ↔ a ∈ s1 ∧ ∀ b ∈ s2, a.equals b = false
  union_from : ∀ a ∈ union s1 s2, a ∈ s1 ∨ a ∈ s2
  union_all : ∀ a, a ∈ s1 ∨ a ∈ s2 → ∃ b ∈ union s1 s2, b.equals a = true
  union_once : ∀ a ∈ union s1 s2, ∀ b ∈ union s1 s2, a.equals b = true → a = b

theorem NoNamesakes.compareTo_iff {xs : List Index} (h : NoNamesakes xs) {a b : Index}
    (ha : a ∈ xs) (hb : b ∈ xs) : compareTo a b = .eq ↔ a.equals b := by
  constructor
  · intro hEq
    have hColumns := (compareTo_eq_iff a b).mp hEq
    exact (equals_iff a b).mpr ⟨hColumns, h a ha b hb hColumns⟩
  · exact compareTo_eq_of_equals

theorem NoNamesakes.contains_iff {xs s2 : List Index} (h : NoNamesakes xs) (hSub : ∀ b ∈ s2, b ∈ xs)
    {a : Index} (ha : a ∈ xs) : (treeSet s2).contains a ↔ ∃ b ∈ s2, a.equals b := by
  rw [contains_treeSet]
  constructor
  · rintro ⟨b, hb, hEq⟩
    exact ⟨b, hb, equals_symm ((h.compareTo_iff (hSub b hb) ha).mp hEq)⟩
  · rintro ⟨b, hb, hEq⟩
    exact ⟨b, hb, compareTo_eq_of_equals (equals_symm hEq)⟩

/-- The first member of its class stands for every member of the class. -/
theorem NoNamesakes.union_all {s1 s2 : List Index} (h : NoNamesakes (s1 ++ s2))
    {a : Index} (ha : a ∈ s1 ++ s2) : ∃ b ∈ union s1 s2, b.equals a := by
  obtain ⟨r, hr, hFirst, hEq⟩ := exists_firstOf compareTo ha
  refine ⟨r, (mem_union s1 s2 r).mpr ?_, (h.compareTo_iff hr ha).mp hEq⟩
  rw [← hFirst]
  unfold firstOf
  congr 1
  funext x
  rw [Std.TransCmp.congr_right hEq]

/-- A union that covers both lists leaves no room for namesakes: of two of them only
one is kept. -/
theorem noNamesakes_of_union {s1 s2 : List Index}
    (h : ∀ a, a ∈ s1 ∨ a ∈ s2 → ∃ b ∈ union s1 s2, b.equals a) : NoNamesakes (s1 ++ s2) := by
  intro a ha b hb hColumns
  obtain ⟨a', ha', hEqA⟩ := h a (mem_append.mp ha)
  obtain ⟨b', hb', hEqB⟩ := h b (mem_append.mp hb)
  have hA := (equals_iff a' a).mp hEqA
  have hB := (equals_iff b' b).mp hEqB
  have hSame : a' = b' := by
    apply union_unique hb' ha'
    rw [compareTo_eq_iff, hA.1, hB.1, hColumns]
  subst hSame
  exact ⟨hA.2.1.symm.trans hB.2.1, hA.2.2.symm.trans hB.2.2⟩

/-- **The set operations follow `Index.equals` exactly on lists without namesakes.**
The comparator orders all indexes, with ties where the columns agree. -/
theorem setAlgebra_iff (s1 s2 : List Index) :
    Std.TransCmp Index.compareTo ∧ (SetAlgebra s1 s2 ↔ NoNamesakes (s1 ++ s2)) := by
  refine ⟨inferInstance, ?_⟩
  constructor
  · intro h
    exact noNamesakes_of_union h.union_all
  · intro h
    have hLeft : ∀ {a}, a ∈ s1 → a ∈ s1 ++ s2 := fun ha => mem_append.mpr (.inl ha)
    have hContains : ∀ {a}, a ∈ s1 →
        ((treeSet s2).contains a ↔ ∃ b ∈ s2, a.equals b) := fun ha =>
      h.contains_iff (fun b hb => mem_append.mpr (.inr hb)) (hLeft ha)
    refine ⟨fun a ha b hb => h.compareTo_iff ha hb, ?_, ?_, ?_, ?_, ?_⟩
    · intro a
      rw [intersect, mem_filter]
      exact and_congr_right hContains
    · intro a
      rw [subtract, mem_filter]
      apply and_congr_right
      intro ha
      rw [Bool.not_eq_true', ← Bool.not_eq_true, hContains ha]
      simp
    · intro a ha
      exact mem_of_mem_union ha
    · intro a ha
      exact h.union_all (mem_append.mpr ha)
    · intro a ha b hb hEq
      exact union_unique hb ha (compareTo_eq_of_equals hEq)

/-- `v(c)` and `u(c)`: the intersection holds the first although the two are not
equal, the difference loses it, and the union has one member only. -/
theorem setAlgebra_namesakes :
    voteV.equals voteU = false ∧ intersect [voteV] [voteU] = [voteV] ∧
      subtract [voteV] [voteU] = [] ∧ union [voteV] [voteU] = [voteV] ∧
      ¬ SetAlgebra [voteV] [voteU] := by
  refine ⟨by decide, by decide +kernel, by decide +kernel, by decide +kernel, ?_⟩
  intro h
  have hIn : voteV ∈ intersect [voteV] [voteU] := by decide +kernel
  obtain ⟨-, b, hb, hEq⟩ := (h.intersect voteV).mp hIn
  rw [mem_singleton.mp hb] at hEq
  exact absurd hEq (by decide)

end PgTuning.Advisor
