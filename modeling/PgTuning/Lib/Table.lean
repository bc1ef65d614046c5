import Mathlib.Data.List.MinMax
import Mathlib.Data.List.Nodup

/-!
# Tables with a key

A `Table ρ key` is a finite collection of rows with pairwise different keys, kept
in the order of the keys. Keeping the order in the type makes the scan of a table
canonical: filtering, changing and removing rows never reorders the rest.
-/

namespace PgTuning.Lib

open List

variable {ρ : Type} {key : ρ → Nat}

/-- Rows in strictly increasing key order. -/
structure Table (ρ : Type) (key : ρ → Nat) where
  rows : List ρ
  sorted : rows.Pairwise fun a b => key a < key b

namespace Table

def empty : Table ρ key := ⟨[], .nil⟩

def get? (t : Table ρ key) (k : Nat) : Option ρ :=
  t.rows.find? fun r => key r == k

/-- Put a row in its place; a row whose key is taken is not inserted. -/
def insertRow (key : ρ → Nat) (r : ρ) : List ρ → List ρ
  | [] => [r]
  | x :: xs =>
    if key r < key x then r :: x :: xs
    else if key r = key x then x :: xs
    else x :: insertRow key r xs

variable {a r : ρ} {xs : List ρ} {k : Nat} {t : Table ρ key} {f : ρ → ρ}

theorem mem_of_mem_insertRow (h : a ∈ insertRow key r xs) : a = r ∨ a ∈ xs := by
  induction xs with
  | nil => exact .inl (mem_singleton.mp h)
  | cons x xs ih =>
    rw [insertRow] at h
    split_ifs at h
    · exact mem_cons.mp h
    · exact .inr h
    · rcases mem_cons.mp h with h | h
      · exact .inr (mem_cons.mpr (.inl h))
      · exact (ih h).imp_right (mem_cons_of_mem x)

theorem mem_insertRow_of_mem (h : a ∈ xs) : a ∈ insertRow key r xs := by
  induction xs with
  | nil => cases h
  | cons x xs ih =>
    rw [insertRow]
    split_ifs
    · exact mem_cons_of_mem r h
    · exact h
    · exact mem_cons.mpr ((mem_cons.mp h).imp_right ih)

theorem self_mem_insertRow (hFresh : ∀ x ∈ xs, key x ≠ key r) : r ∈ insertRow key r xs := by
  induction xs with
  | nil => exact mem_singleton.mpr rfl
  | cons x xs ih =>
    have hx : key r ≠ key x := fun h => hFresh x mem_cons_self h.symm
    rw [insertRow]
    split_ifs
    · exact mem_cons_self
    · exact mem_cons_of_mem x (ih fun y hy => hFresh y (mem_cons_of_mem x hy))

theorem insertRow_sorted (r : ρ) (h : xs.Pairwise fun a b => key a < key b) :
    (insertRow key r xs).Pairwise fun a b => key a < key b := by
  induction xs with
  | nil => exact pairwise_singleton _ _
  | cons x xs ih =>
    obtain ⟨hHead, hTail⟩ := pairwise_cons.mp h
    rw [insertRow]
    split_ifs with hLess hEq
    · refine pairwise_cons.mpr ⟨?_, h⟩
      refine forall_mem_cons.mpr ⟨hLess, fun y hy => ?_⟩
      have := hHead y hy
      omega
    · exact h
    · refine pairwise_cons.mpr ⟨?_, ih hTail⟩
      intro y hy
      rcases mem_of_mem_insertRow hy with hy | hy
      · rw [hy]
        omega
      · exact hHead y hy

/-- Insert a row; nothing happens when its key is taken. -/
def insert (t : Table ρ key) (r : ρ) : Table ρ key :=
  ⟨insertRow key r t.rows, insertRow_sorted r t.sorted⟩

/-- Change the rows without touching their keys. -/
def map (t : Table ρ key) (f : ρ → ρ) (hKey : ∀ r, key (f r) = key r) :
    Table ρ key where
  rows := t.rows.map f
  sorted := by
    rw [List.pairwise_map]
    exact t.sorted.imp fun {a b} h => by rw [hKey, hKey]; exact h

def modify (t : Table ρ key) (k : Nat) (f : ρ → ρ) (hKey : ∀ r, key (f r) = key r) :
    Table ρ key :=
  t.map (fun r => if key r = k then f r else r) fun r => by
    split_ifs
    · exact hKey r
    · rfl

def filter (t : Table ρ key) (p : ρ → Bool) : Table ρ key :=
  ⟨t.rows.filter p, t.sorted.filter p⟩

def erase (t : Table ρ key) (k : Nat) : Table ρ key :=
  t.filter fun r => !(key r == k)

/-- A number above all keys. -/
def bound (t : Table ρ key) : Nat :=
  (t.rows.map fun r => key r + 1).foldr max 0

/-! ## Rows -/

theorem nodup_keys (t : Table ρ key) : (t.rows.map key).Nodup := by
  rw [List.Nodup, pairwise_map]
  exact t.sorted.imp fun hLt => Nat.ne_of_lt hLt

theorem nodup (t : Table ρ key) : t.rows.Nodup := t.nodup_keys.of_map

theorem eq_of_key (t : Table ρ key) {b : ρ} (ha : a ∈ t.rows) (hb : b ∈ t.rows)
    (hKey : key a = key b) : a = b :=
  inj_on_of_nodup_map t.nodup_keys ha hb hKey

theorem get?_eq_some : t.get? k = some r ↔ r ∈ t.rows ∧ key r = k := by
  constructor
  · intro h
    exact ⟨mem_of_find?_eq_some h, by simpa using find?_some h⟩
  · rintro ⟨hMem, hKey⟩
    cases hFind : t.get? k with
    | none =>
      have h := find?_eq_none.mp hFind r hMem
      exact absurd hKey (by simpa using h)
    | some r' =>
      have hMem' := mem_of_find?_eq_some hFind
      have hKey' : key r' = k := by simpa using find?_some hFind
      rw [t.eq_of_key hMem' hMem (hKey'.trans hKey.symm)]

theorem key_lt_bound (h : r ∈ t.rows) : key r < t.bound :=
  le_max_of_le' 0 (mem_map_of_mem (f := fun r => key r + 1) h) le_rfl

theorem get?_eq_none_of_bound_le (h : t.bound ≤ k) : t.get? k = none := by
  cases hGet : t.get? k with
  | none => rfl
  | some r =>
    obtain ⟨hMem, hKey⟩ := get?_eq_some.mp hGet
    have := key_lt_bound hMem
    omega

theorem mem_insert (hFresh : t.get? (key r) = none) :
    a ∈ (t.insert r).rows ↔ a = r ∨ a ∈ t.rows := by
  have hNot : ∀ x ∈ t.rows, key x ≠ key r := by
    intro x hx hKey
    rw [get?_eq_some.mpr ⟨hx, hKey⟩] at hFresh
    cases hFresh
  constructor
  · exact mem_of_mem_insertRow
  · rintro (h | h)
    · rw [h]
      exact self_mem_insertRow hNot
    · exact mem_insertRow_of_mem h

theorem forall_mem_insert {P : ρ → Prop} (hNew : P r) (hOld : ∀ x ∈ t.rows, P x) :
    ∀ x ∈ (t.insert r).rows, P x := by
  intro x hx
  rcases mem_of_mem_insertRow hx with rfl | hx
  · exact hNew
  · exact hOld x hx

theorem mem_modify (hKey : ∀ r, key (f r) = key r) :
    a ∈ (t.modify k f hKey).rows ↔
      ∃ r ∈ t.rows, a = if key r = k then f r else r := by
  show a ∈ t.rows.map _ ↔ _
  rw [mem_map]
  constructor
  · rintro ⟨r, hr, h⟩
    exact ⟨r, hr, h.symm⟩
  · rintro ⟨r, hr, h⟩
    exact ⟨r, hr, h.symm⟩

theorem mem_filter {p : ρ → Bool} : a ∈ (t.filter p).rows ↔ a ∈ t.rows ∧ p a :=
  List.mem_filter

/-! ## Rows by their key -/

theorem get?_insert (hFresh : t.get? (key r) = none) (k : Nat) :
    (t.insert r).get? k = if k = key r then some r else t.get? k := by
  split_ifs with hEq
  · exact get?_eq_some.mpr ⟨(mem_insert hFresh).mpr (.inl rfl), hEq.symm⟩
  · ext a
    rw [get?_eq_some, get?_eq_some, mem_insert hFresh]
    constructor
    · rintro ⟨ha | ha, hk⟩
      · exact absurd (by rw [← hk, ha]) hEq
      · exact ⟨ha, hk⟩
    · exact fun ⟨ha, hk⟩ => ⟨.inr ha, hk⟩

theorem get?_erase (t : Table ρ key) (k k' : Nat) :
    (t.erase k).get? k' = if k' = k then none else t.get? k' := by
  unfold get? erase filter
  rw [find?_filter]
  split_ifs with hEq
  · simp [hEq]
  · congr 1
    funext r
    by_cases hk : key r = k' <;> simp [hk, hEq]

theorem get?_modify (t : Table ρ key) (k : Nat) (f : ρ → ρ) (hKey : ∀ r, key (f r) = key r)
    (k' : Nat) : (t.modify k f hKey).get? k' = if k' = k then (t.get? k').map f else t.get? k' := by
  have hSame : ((fun r => key r == k') ∘ fun r => if key r = k then f r else r) =
      fun r => key r == k' := by
    funext r
    rw [Function.comp_apply]
    split_ifs
    · rw [hKey]
    · rfl
  unfold get? modify map
  rw [find?_map, hSame]
  cases hFind : t.rows.find? fun r => key r == k' with
  | none => simp
  | some r =>
    have hk : key r = k' := by simpa using find?_some hFind
    rw [Option.map_some, hk]
    split_ifs <;> rfl

theorem get?_empty (k : Nat) : (empty : Table ρ key).get? k = none := rfl

/-! ## How the rows change -/

theorem insert_perm (hFresh : t.get? (key r) = none) : (t.insert r).rows.Perm (r :: t.rows) := by
  have hNot : r ∉ t.rows := by
    intro hMem
    rw [get?_eq_some.mpr ⟨hMem, rfl⟩] at hFresh
    cases hFresh
  rw [perm_ext_iff_of_nodup (t.insert r).nodup (nodup_cons.mpr ⟨hNot, t.nodup⟩)]
  intro a
  rw [mem_insert hFresh, mem_cons]

theorem erase_perm (h : t.get? k = some r) : t.rows.Perm (r :: (t.erase k).rows) := by
  obtain ⟨hMem, hKey⟩ := get?_eq_some.mp h
  have hErase : ∀ a, a ∈ (t.erase k).rows ↔ a ∈ t.rows ∧ key a ≠ k := by
    intro a
    unfold erase
    rw [mem_filter]
    simp
  have hNot : r ∉ (t.erase k).rows := fun hIn => ((hErase r).mp hIn).2 hKey
  rw [perm_ext_iff_of_nodup t.nodup (nodup_cons.mpr ⟨hNot, (t.erase k).nodup⟩)]
  intro a
  rw [mem_cons, hErase]
  constructor
  · intro ha
    by_cases hk : key a = k
    · exact .inl (t.eq_of_key ha hMem (hk.trans hKey.symm))
    · exact .inr ⟨ha, hk⟩
  · rintro (ha | ha)
    · rw [ha]
      exact hMem
    · exact ha.1

theorem modify_perm (hKey : ∀ r, key (f r) = key r) (h : t.get? k = some r) :
    (t.modify k f hKey).rows.Perm (f r :: (t.erase k).rows) := by
  have hNew : (t.modify k f hKey).get? k = some (f r) := by
    rw [get?_modify, if_pos rfl, h]
    rfl
  refine (erase_perm hNew).trans (List.Perm.cons _ ?_)
  rw [perm_ext_iff_of_nodup (nodup _) (nodup _)]
  intro a
  have hIff : ∀ t' : Table ρ key, a ∈ t'.rows ↔ t'.get? (key a) = some a :=
    fun t' => ⟨fun ha => get?_eq_some.mpr ⟨ha, rfl⟩, fun ha => (get?_eq_some.mp ha).1⟩
  rw [hIff, hIff, get?_erase, get?_erase]
  by_cases hk : key a = k
  · rw [if_pos hk, if_pos hk]
  · rw [if_neg hk, if_neg hk, get?_modify, if_neg hk]

end Table

end PgTuning.Lib
