import Mathlib.Data.Fintype.EquivFin
import PgTuning.Backend.ConstraintCommands

/-!
# The target of a foreign key

`transformFkeyCheckAttrs` looks for a unique index on the referenced columns and returns it with the
operator class of each column. The columns may stand in any order: the function tests that each list
is a subset of the other, and the second test writes the operator classes as it goes. One flag
`found` serves both tests and all indexes.

The two subset tests amount to a permutation, and every slot of the output is written, if no
referenced column is repeated (`targetMatched_of_nodup`). With a repeated column the slot of the
second occurrence is never written (`scanIndexes_frame`).
-/

namespace PgTuning.Backend.FkeyCheck

open PgTuning.Backend List IndexColumn

/-- The variables of the search over the indexes. -/
structure Search where
  found : Bool
  foundDeferrable : Bool
  opclasses : List Oid
deriving DecidableEq, Repr

/-- Each referenced column is a column of the index. The flag is reset for each column, so
without columns it keeps the value it had. -/
def attnumsInKey (indkey : List Int) (found : Bool) : List Int → Bool
  | [] => found
  | attnum :: rest =>
    match indkey.idxOf? attnum with
    | some _ => attnumsInKey indkey true rest
    | none => false

/-- Each column of the index is a referenced column, and the first one it equals gets its
operator class. -/
def keyInAttnums (attnums : List Int) (found : Bool) (opclasses : List Oid) :
    List (Int × Oid) → Bool × List Oid
  | [] => (found, opclasses)
  | (key, opclass) :: rest =>
    match attnums.idxOf? key with
    | some j => keyInAttnums attnums true (opclasses.set j opclass) rest
    | none => (false, opclasses)

section Search

variable (indclass : Oid → Nat → Oid) (attnums : List Int)

/-- The columns of an index with their operator classes. -/
def keyColumns (index : PgIndex) : List (Int × Oid) :=
  index.columns.mapIdx fun i column => (column.attnum, indclass index.indexrelid i)

/-- What the loop does with one index. -/
def checkIndex (s : Search) (index : PgIndex) : Search :=
  if index.columns.length = attnums.length ∧ index.indisunique ∧ index.indpred.isEmpty ∧
      index.indexprs.isEmpty then
    let found := attnumsInKey (index.columns.map IndexColumn.attnum) s.found attnums
    let (found, opclasses) :=
      if found then keyInAttnums attnums found s.opclasses (keyColumns indclass index)
      else (found, s.opclasses)
    -- A deferrable key is remembered for the error message only.
    if found && !index.indimmediate then ⟨false, true, opclasses⟩
    else ⟨found, s.foundDeferrable, opclasses⟩
  else s

/-- The loop over the indexes, which stops at the first one found. -/
def scanIndexes (s : Search) : List PgIndex → Search × Option PgIndex
  | [] => (s, none)
  | index :: rest =>
    let s := checkIndex indclass attnums s index
    if s.found then (s, some index) else scanIndexes s rest

/-- `transformFkeyCheckAttrs`. `opclasses` is what the caller's array holds. -/
def transformFkeyCheckAttrs (cat : Catalog) (pkrel : PgClass) (opclasses : List Oid) :
    Except Error (PgIndex × List Oid) :=
  match scanIndexes indclass attnums ⟨false, false, opclasses⟩
      (cat.relationGetIndexList pkrel.oid) with
  | (s, some index) => .ok (index, s.opclasses)
  | (s, none) =>
    if s.foundDeferrable then
      .error ⟨.objectNotInPrerequisiteState,
        "cannot use a deferrable unique constraint for referenced table \"" ++
          pkrel.relname ++ "\""⟩
    else .error ⟨.invalidForeignKey,
      "there is no unique constraint matching given keys for referenced table \"" ++
        pkrel.relname ++ "\""⟩

end Search

/-! ## The two subset tests -/

variable {j : Nat} {attnums : List Int} {found : Bool} {cols : List (Int × Oid)}
  {opclasses : List Oid}

theorem mem_of_idxOf? {xs : List Int} {x : Int} (h : xs.idxOf? x = some j) : x ∈ xs := by
  apply isSome_idxOf?.mp
  rw [h]
  rfl

theorem attnumsInKey_eq_true {indkey : List Int} (hFound : attnums = [] → found) :
    attnumsInKey indkey found attnums ↔ ∀ a ∈ attnums, a ∈ indkey := by
  induction attnums generalizing found with
  | nil => simp [attnumsInKey, hFound]
  | cons a rest ih =>
    unfold attnumsInKey
    cases hIdx : indkey.idxOf? a with
    | none =>
      have hNot : a ∉ indkey := idxOf?_eq_none_iff.mp hIdx
      simp [hNot]
    | some j =>
      have hMem : a ∈ indkey := mem_of_idxOf? hIdx
      simp [ih, hMem]

theorem keyInAttnums_found (hFound : cols = [] → found) :
    (keyInAttnums attnums found opclasses cols).1 ↔ ∀ c ∈ cols, c.1 ∈ attnums := by
  induction cols generalizing found opclasses with
  | nil => simp [keyInAttnums, hFound]
  | cons c rest ih =>
    unfold keyInAttnums
    cases hIdx : attnums.idxOf? c.1 with
    | none =>
      have hNot : c.1 ∉ attnums := idxOf?_eq_none_iff.mp hIdx
      simp [hNot]
    | some j =>
      have hMem : c.1 ∈ attnums := mem_of_idxOf? hIdx
      simp [ih, hMem]

/-! ## The slots of the output -/

theorem length_keyInAttnums (attnums : List Int) (found : Bool) (opclasses : List Oid)
    (cols : List (Int × Oid)) :
    (keyInAttnums attnums found opclasses cols).2.length = opclasses.length := by
  induction cols generalizing found opclasses with
  | nil => rfl
  | cons c rest ih =>
    unfold keyInAttnums
    cases attnums.idxOf? c.1 with
    | none => rfl
    | some j => exact (ih _ _).trans length_set

/-- A slot that is not the first one of any column of the index is left alone. -/
theorem keyInAttnums_frame (hFirst : ∀ c ∈ cols, attnums.idxOf? c.1 ≠ some j) :
    (keyInAttnums attnums found opclasses cols).2[j]? = opclasses[j]? := by
  induction cols generalizing found opclasses with
  | nil => rfl
  | cons c rest ih =>
    unfold keyInAttnums
    cases hIdx : attnums.idxOf? c.1 with
    | none => rfl
    | some i =>
      have hNe : i ≠ j := fun h => hFirst c mem_cons_self (h ▸ hIdx)
      rw [ih fun c' hc' => hFirst c' (mem_cons_of_mem c hc'), getElem?_set_ne hNe]

/-- The slot of a column of the index holds its operator class in the end. -/
theorem keyInAttnums_slot (hKeys : (cols.map Prod.fst).Nodup)
    (hAll : ∀ c ∈ cols, c.1 ∈ attnums) {c : Int × Oid} (hc : c ∈ cols)
    (hIdx : attnums.idxOf? c.1 = some j) (hLt : j < opclasses.length) :
    (keyInAttnums attnums found opclasses cols).2[j]? = some c.2 := by
  induction cols generalizing found opclasses with
  | nil => cases hc
  | cons c' rest ih =>
    rw [map_cons, nodup_cons] at hKeys
    obtain ⟨i, hi⟩ := Option.isSome_iff_exists.mp (isSome_idxOf?.mpr (hAll c' mem_cons_self))
    unfold keyInAttnums
    simp only [hi]
    rcases mem_cons.mp hc with rfl | hRest
    · -- No later column of the index has this key, so the slot keeps what was written.
      rw [hi] at hIdx
      cases hIdx
      rw [keyInAttnums_frame, getElem?_set_self hLt]
      intro d hd hSame
      have hKey : d.1 = c.1 := by
        obtain ⟨_, hd', -⟩ := idxOf?_eq_some_iff.mp hSame
        obtain ⟨_, hc', -⟩ := idxOf?_eq_some_iff.mp hi
        exact hd'.symm.trans hc'
      exact hKeys.1 (hKey ▸ mem_map_of_mem hd)
    · apply ih hKeys.2 (fun d hd => hAll d (mem_cons_of_mem c' hd)) hRest
      rw [length_set]
      exact hLt

/-! ## One index -/

section Index

variable {indclass : Oid → Nat → Oid} {attnums : List Int}

theorem keyColumns_map_fst (indclass : Oid → Nat → Oid) (index : PgIndex) :
    (keyColumns indclass index).map Prod.fst = index.columns.map attnum := by
  apply ext_getElem?
  intro i
  rw [keyColumns, getElem?_map, getElem?_mapIdx, getElem?_map, Option.map_map]
  rfl

theorem forall_keyColumns (indclass : Oid → Nat → Oid) (index : PgIndex) {P : Int → Prop} :
    (∀ c ∈ keyColumns indclass index, P c.1) ↔
      ∀ key ∈ index.columns.map attnum, P key := by
  rw [← keyColumns_map_fst indclass, forall_mem_map]

theorem isUniqueOn_iff (index : PgIndex) :
    index.isUniqueOn attnums ↔
      (index.columns.length = attnums.length ∧ index.indisunique ∧ index.indpred.isEmpty ∧
        index.indexprs.isEmpty) ∧
      (∀ a ∈ attnums, a ∈ index.columns.map attnum) ∧
      ∀ key ∈ index.columns.map attnum, key ∈ attnums := by
  simp [PgIndex.isUniqueOn, and_assoc]

variable {index : PgIndex} {s : Search} {indexes : List PgIndex}

theorem isUniqueOn_eq (indclass : Oid → Nat → Oid) (hCols : index.columns ≠ []) (s : Search) :
    index.isUniqueOn attnums =
      (decide (index.columns.length = attnums.length ∧ index.indisunique ∧ index.indpred.isEmpty ∧
        index.indexprs.isEmpty) && (attnumsInKey (index.columns.map attnum) s.found attnums &&
        (keyInAttnums attnums true s.opclasses (keyColumns indclass index)).1)) := by
  rw [Bool.eq_iff_iff, isUniqueOn_iff, Bool.and_eq_true, Bool.and_eq_true, decide_eq_true_iff,
    keyInAttnums_found fun _ => rfl, forall_keyColumns]
  refine and_congr_right fun hForm => and_congr_left' (attnumsInKey_eq_true fun hNil => ?_).symm
  rw [hNil] at hForm
  exact absurd (length_eq_zero_iff.mp hForm.1) hCols

/-- **One index.** The array after it is the one before, or the result of the second test. -/
theorem checkIndex_spec (indclass : Oid → Nat → Oid) (attnums : List Int)
    (hCols : index.columns ≠ []) (hStart : s.found = false) :
    (checkIndex indclass attnums s index).found = index.matchesKey attnums ∧
      (checkIndex indclass attnums s index).foundDeferrable =
        (s.foundDeferrable || (index.isUniqueOn attnums && !index.indimmediate)) ∧
      ((checkIndex indclass attnums s index).opclasses = s.opclasses ∧
          index.matchesKey attnums = false ∨
        (checkIndex indclass attnums s index).opclasses =
          (keyInAttnums attnums true s.opclasses (keyColumns indclass index)).2) := by
  unfold PgIndex.matchesKey checkIndex
  rw [isUniqueOn_eq indclass hCols s]
  by_cases hForm : index.columns.length = attnums.length ∧ index.indisunique ∧
      index.indpred.isEmpty ∧ index.indexprs.isEmpty
  · rw [if_pos hForm, decide_eq_true hForm]
    cases attnumsInKey (index.columns.map attnum) s.found attnums with
    | false => simp
    | true =>
      simp only [if_true]
      rcases keyInAttnums attnums true s.opclasses (keyColumns indclass index) with ⟨second, ops⟩
      cases second <;> cases index.indimmediate <;> simp
  · rw [if_neg hForm, decide_eq_false hForm]
    simp [hStart]

/-! ## The search -/

variable (hCols : ∀ ix ∈ indexes, ix.columns ≠ []) (hStart : s.found = false)
include hCols hStart

/-- The search finds the first index a foreign key may reference, and notices the
deferrable ones before. -/
theorem scanIndexes_search (indclass : Oid → Nat → Oid) (attnums : List Int) :
    (scanIndexes indclass attnums s indexes).2 = indexes.find? (PgIndex.matchesKey attnums) ∧
      (indexes.find? (PgIndex.matchesKey attnums) = none →
        (scanIndexes indclass attnums s indexes).1.foundDeferrable =
          (s.foundDeferrable || indexes.any fun ix => ix.isUniqueOn attnums)) := by
  induction indexes generalizing s with
  | nil => exact ⟨rfl, fun _ => (Bool.or_false _).symm⟩
  | cons index rest ih =>
    have hRest : ∀ ix ∈ rest, ix.columns ≠ [] := fun ix hix =>
      hCols ix (mem_cons_of_mem index hix)
    obtain ⟨hFound, hDeferrable, -⟩ :=
      checkIndex_spec indclass attnums (hCols index mem_cons_self) hStart
    unfold scanIndexes
    cases hMatch : index.matchesKey attnums with
    | true => simp [hFound, hMatch]
    | false =>
      rw [hMatch] at hFound
      obtain ⟨hFind, hAny⟩ := ih hRest hFound
      simp only [hFound, Bool.false_eq_true, if_false, find?_cons, hMatch, any_cons]
      refine ⟨hFind, fun hNone => ?_⟩
      rw [hAny hNone, hDeferrable, Bool.or_assoc]
      -- An index that passes the tests and does not match is deferrable.
      cases hUnique : index.isUniqueOn attnums with
      | false => rfl
      | true =>
        have hImm : index.indimmediate = false := by
          simpa [PgIndex.matchesKey, hUnique] using hMatch
        rw [hImm]
        rfl

/-- A slot that is no first occurrence keeps its value through the whole search. -/
theorem scanIndexes_frame {j : Nat} (hFirst : ∀ key, attnums.idxOf? key ≠ some j) :
    (scanIndexes indclass attnums s indexes).1.opclasses[j]? = s.opclasses[j]? := by
  induction indexes generalizing s with
  | nil => rfl
  | cons index rest ih =>
    obtain ⟨-, -, hOps⟩ := checkIndex_spec indclass attnums (hCols index mem_cons_self) hStart
    have hOne : (checkIndex indclass attnums s index).opclasses[j]? = s.opclasses[j]? := by
      rcases hOps with ⟨h, -⟩ | h
      · rw [h]
      · rw [h]
        exact keyInAttnums_frame fun c _ => hFirst c.1
    unfold scanIndexes
    simp only
    split_ifs with hFound
    · exact hOne
    · exact (ih (fun ix hix => hCols ix (mem_cons_of_mem index hix)) (by simpa using hFound)).trans
        hOne

/-- The array of a successful search comes from the second test of the index found. -/
theorem scanIndexes_opclasses (indclass : Oid → Nat → Oid)
    (hFind : indexes.find? (PgIndex.matchesKey attnums) = some index) :
    ∃ opclasses, opclasses.length = s.opclasses.length ∧
      (scanIndexes indclass attnums s indexes).1.opclasses =
        (keyInAttnums attnums true opclasses (keyColumns indclass index)).2 := by
  induction indexes generalizing s with
  | nil => cases hFind
  | cons head rest ih =>
    have hRest : ∀ ix ∈ rest, ix.columns ≠ [] := fun ix hix =>
      hCols ix (mem_cons_of_mem head hix)
    obtain ⟨hFound, -, hOps⟩ := checkIndex_spec indclass attnums (hCols head mem_cons_self) hStart
    unfold scanIndexes
    cases hMatch : head.matchesKey attnums with
    | true =>
      rw [find?_cons, hMatch] at hFind
      cases hFind
      simp only [hFound, hMatch]
      exact ⟨s.opclasses, rfl, hOps.resolve_left (by simp [hMatch])⟩
    | false =>
      rw [find?_cons, hMatch] at hFind
      rw [hMatch] at hFound
      obtain ⟨opclasses, hLen, hRun⟩ := ih hRest hFound hFind
      refine ⟨opclasses, hLen.trans ?_, ?_⟩
      · rcases hOps with ⟨h, -⟩ | h
        · rw [h]
        · rw [h]
          exact length_keyInAttnums _ _ _ _
      · simp only [hFound]
        exact hRun

end Index

/-! ## The target -/

section Target

variable {cat : Catalog} {pkrel : PgClass} {indclass : Oid → Nat → Oid} {attnums : List Int}

variable {index : PgIndex} {opclasses : List Oid}

section

variable (hCols : ∀ ix ∈ cat.relationGetIndexList pkrel.oid, ix.columns ≠ []) {xs : List Int}
include hCols

/-- The search finds what the abstract one does, and fails with its errors. -/
theorem transformFkeyCheckAttrs_eq (opclasses : List Oid) :
    transformFkeyCheckAttrs indclass attnums cat pkrel opclasses =
      (Backend.transformFkeyCheckAttrs cat pkrel attnums).map fun index =>
        (index, (scanIndexes indclass attnums ⟨false, false, opclasses⟩
          (cat.relationGetIndexList pkrel.oid)).1.opclasses) := by
  obtain ⟨hScan, hDeferrable⟩ := scanIndexes_search hCols
    (s := ⟨false, false, opclasses⟩) rfl indclass attnums
  unfold transformFkeyCheckAttrs Backend.transformFkeyCheckAttrs
  revert hScan hDeferrable
  rcases scanIndexes indclass attnums ⟨false, false, opclasses⟩
    (cat.relationGetIndexList pkrel.oid) with ⟨s, found⟩
  rintro rfl hDeferrable
  simp only [Bool.false_or] at hDeferrable ⊢
  cases hFind : (cat.relationGetIndexList pkrel.oid).find? (PgIndex.matchesKey attnums) with
  | some index => rfl
  | none =>
    simp only [hDeferrable hFind]
    split_ifs <;> rfl

theorem transformFkeyCheckAttrs_eq_ok {r : PgIndex × List Oid} :
    transformFkeyCheckAttrs indclass attnums cat pkrel opclasses = .ok r ↔
      (cat.relationGetIndexList pkrel.oid).find? (PgIndex.matchesKey attnums) = some r.1 ∧
      (scanIndexes indclass attnums ⟨false, false, opclasses⟩
        (cat.relationGetIndexList pkrel.oid)).1.opclasses = r.2 := by
  rw [transformFkeyCheckAttrs_eq hCols, Backend.transformFkeyCheckAttrs]
  cases (cat.relationGetIndexList pkrel.oid).find? (PgIndex.matchesKey attnums) with
  | some index => simp [Except.map, Prod.ext_iff]
  | none =>
    split_ifs <;> simp [Except.map]

/-- An index that can back a foreign key to these columns. -/
structure BacksKey (attnums : List Int) (index : PgIndex) : Prop where
  unique : index.indisunique = true
  immediate : index.indimmediate = true
  total : index.indpred = []
  plain : index.indexprs = []
  columns : attnums.Perm (index.columns.map IndexColumn.attnum)

/-- What the foreign key relies on. -/
structure TargetMatched (indclass : Oid → Nat → Oid) (attnums : List Int) (cat : Catalog)
    (pkrel : PgClass) (opclasses : List Oid) : Prop where
  sound : ∀ index ops,
    transformFkeyCheckAttrs indclass attnums cat pkrel opclasses = .ok (index, ops) →
      index ∈ cat.relationGetIndexList pkrel.oid ∧ BacksKey attnums index ∧
      ∀ j < attnums.length, ∃ i column, index.columns[i]? = some column ∧
        attnums[j]? = some column.attnum ∧ ops[j]? = some (indclass index.indexrelid i)
  complete : ∀ target ∈ cat.relationGetIndexList pkrel.oid, BacksKey attnums target →
    ∃ index ops,
      transformFkeyCheckAttrs indclass attnums cat pkrel opclasses = .ok (index, ops)

omit hCols in
/-- A permutation passes both subset tests. -/
theorem BacksKey.matchesKey (h : BacksKey attnums index) : index.matchesKey attnums := by
  have hLen := h.columns.length_eq
  rw [length_map] at hLen
  have hBoth : index.isUniqueOn attnums := by
    rw [isUniqueOn_iff]
    refine ⟨⟨hLen.symm, h.unique, by rw [h.total]; rfl, by rw [h.plain]; rfl⟩, ?_, ?_⟩
    · exact fun a ha => h.columns.mem_iff.mp ha
    · exact fun key hKey => h.columns.mem_iff.mpr hKey
  rw [PgIndex.matchesKey, hBoth, h.immediate]
  rfl

omit hCols in
/-- Without a repeated column the two tests, with the length, leave a permutation. -/
theorem backsKey_of_nodup (hNodup : attnums.Nodup)
    (hMatch : index.matchesKey attnums) : BacksKey attnums index := by
  rw [PgIndex.matchesKey, Bool.and_eq_true] at hMatch
  obtain ⟨⟨hLen, hUnique, hPred, hExprs⟩, hIn, -⟩ := (isUniqueOn_iff index).mp hMatch.1
  have hSubperm : attnums.Subperm (index.columns.map attnum) := hNodup.subperm hIn
  have hLe : (index.columns.map attnum).length ≤ attnums.length := by
    rw [length_map]
    exact Nat.le_of_eq hLen
  exact
    { unique := hUnique
      immediate := hMatch.2
      total := isEmpty_iff.mp hPred
      plain := isEmpty_iff.mp hExprs
      columns := hSubperm.perm_of_length_le hLe }

omit hCols in
theorem idxOf?_getElem (hNodup : xs.Nodup) {j : Nat} (hj : j < xs.length) :
    xs.idxOf? xs[j] = some j := by
  apply idxOf?_eq_some_iff.mpr
  refine ⟨hj, rfl, ?_⟩
  intro i hi hSame
  have hEq := (hNodup.getElem_inj_iff).mp hSame
  omega

omit hCols in
/-- A repeated column leaves a slot that is no first occurrence. -/
theorem exists_later_of_not_nodup (hDup : ¬ xs.Nodup) :
    ∃ j < xs.length, ∀ x, xs.idxOf? x ≠ some j := by
  rw [List.Nodup, pairwise_iff_getElem] at hDup
  push Not at hDup
  obtain ⟨i, j, hi, hj, hLt, hSame⟩ := hDup
  refine ⟨j, hj, ?_⟩
  intro x hIdx
  obtain ⟨_, hx, hEarlier⟩ := idxOf?_eq_some_iff.mp hIdx
  exact hEarlier i hLt (hSame.trans hx)

theorem targetMatched_of_nodup (hNodup : attnums.Nodup) (hLen : opclasses.length = attnums.length) :
    TargetMatched indclass attnums cat pkrel opclasses where
  sound := by
    intro index ops hRun
    obtain ⟨hFind, rfl⟩ := (transformFkeyCheckAttrs_eq_ok hCols).mp hRun
    have hBacks := backsKey_of_nodup hNodup (find?_some hFind)
    refine ⟨mem_of_find?_eq_some hFind, hBacks, ?_⟩
    intro j hj
    obtain ⟨start, hStart, hOps⟩ := scanIndexes_opclasses hCols
      (s := ⟨false, false, opclasses⟩) rfl indclass hFind
    -- The column of the index that equals the one referenced here.
    obtain ⟨column, hColumn, hAttnum⟩ := mem_map.mp (hBacks.columns.mem_iff.mp (getElem_mem hj))
    obtain ⟨i, hi, hAt⟩ := mem_iff_getElem.mp hColumn
    have hCol : index.columns[i]? = some column := by
      rw [getElem?_eq_getElem hi, hAt]
    have hKey : (column.attnum, indclass index.indexrelid i) ∈ keyColumns indclass index := by
      apply mem_iff_getElem?.mpr
      refine ⟨i, ?_⟩
      rw [keyColumns, getElem?_mapIdx, hCol]
      rfl
    refine ⟨i, column, hCol, ?_, ?_⟩
    · rw [hAttnum, getElem?_eq_getElem hj]
    · rw [hOps]
      apply keyInAttnums_slot _ _ hKey
      · rw [hAttnum]
        exact idxOf?_getElem hNodup hj
      · rw [hStart]
        exact hLen ▸ hj
      · rw [keyColumns_map_fst]
        exact hBacks.columns.nodup_iff.mp hNodup
      · exact (forall_keyColumns indclass index).mpr fun key hKey =>
          hBacks.columns.mem_iff.mpr hKey
  complete := by
    intro target hTarget hBacks
    obtain ⟨found, hFind⟩ := Option.isSome_iff_exists.mp
      (find?_isSome.mpr ⟨target, hTarget, hBacks.matchesKey⟩)
    exact ⟨found, _, (transformFkeyCheckAttrs_eq_ok hCols).mpr ⟨hFind, rfl⟩⟩

end

/-- **When the target of a foreign key is matched**, whatever the array holds: no column is
repeated, or no index passes the two subset tests. -/
theorem targetMatched_iff (hCols : ∀ ix ∈ cat.relationGetIndexList pkrel.oid, ix.columns ≠ []) :
    (∀ opclasses, opclasses.length = attnums.length →
        TargetMatched indclass attnums cat pkrel opclasses) ↔
      attnums.Nodup ∨
        ∀ ix ∈ cat.relationGetIndexList pkrel.oid, ix.matchesKey attnums = false := by
  constructor
  · intro h
    by_contra hNot
    push Not at hNot
    obtain ⟨hDup, ix, hMem, hMatch⟩ := hNot
    obtain ⟨index, hFind⟩ := Option.isSome_iff_exists.mp
      (find?_isSome.mpr ⟨ix, hMem, eq_true_of_ne_false hMatch⟩)
    obtain ⟨j, hj, hLater⟩ := exists_later_of_not_nodup hDup
    -- An operator class that no column of the index has.
    obtain ⟨junk, hJunk⟩ := Infinite.exists_notMem_finset
      ((Finset.range index.columns.length).image (indclass index.indexrelid))
    let opclasses := replicate attnums.length junk
    have hRun : transformFkeyCheckAttrs indclass attnums cat pkrel opclasses = .ok (index, _) :=
      (transformFkeyCheckAttrs_eq_ok hCols).mpr ⟨hFind, rfl⟩
    obtain ⟨-, -, hSlots⟩ := (h _ length_replicate).sound index _ hRun
    obtain ⟨i, column, hColumn, -, hOp⟩ := hSlots j hj
    rw [scanIndexes_frame hCols rfl hLater, getElem?_replicate, if_pos hj] at hOp
    injection hOp with hOp
    obtain ⟨hi, -⟩ := List.getElem?_eq_some_iff.mp hColumn
    exact hJunk (Finset.mem_image.mpr ⟨i, Finset.mem_range.mpr hi, hOp.symm⟩)
  · rintro (hNodup | hNone) opclasses hLen
    · exact targetMatched_of_nodup hCols hNodup hLen
    · have hFind : (cat.relationGetIndexList pkrel.oid).find?
          (PgIndex.matchesKey attnums) = none := by
        apply find?_eq_none.mpr
        intro ix hix
        rw [hNone ix hix]
        exact Bool.false_ne_true
      constructor
      · intro index ops hRun
        rw [((transformFkeyCheckAttrs_eq_ok hCols).mp hRun).1] at hFind
        cases hFind
      · intro target hTarget hBacks
        have hMatch := hBacks.matchesKey
        rw [hNone target hTarget] at hMatch
        cases hMatch

end Target

def uniqueIndex (attnums : List Int) : PgIndex where
  indexrelid := 16500
  relname := "t_key"
  indrelid := 16400
  relam := .btree
  columns := attnums.map fun attnum => ⟨attnum, 0, 1976, .int4, true, -1, 4, false, false⟩
  indexprs := []
  indpred := []
  indisunique := true
  indisprimary := false
  indisexclusion := false
  indimmediate := true
  indisclustered := false
  indisvalid := true
  indcheckxmin := false
  indisready := true
  indishypothetical := false
  xmin := 3

def keyedTable : PgClass := ⟨16400, "t", true, false, true⟩

def keyedCatalog (attnums : List Int) : Catalog where
  pgClass := PgTuning.Lib.Table.empty.insert keyedTable
  pgIndex := PgTuning.Lib.Table.empty.insert (uniqueIndex attnums)
  pgConstraint := PgTuning.Lib.Table.empty

/-- The columns in the other order. -/
theorem targetMatched_swapped :
    TargetMatched (fun _ i => 1978 + i) [2, 1] (keyedCatalog [1, 2]) keyedTable [0, 0] :=
  (targetMatched_iff (by decide)).mpr (.inl (by decide)) [0, 0] rfl

/-- The key `(1, 2, 2)` goes to an index on `(1, 1, 2)`: each list is a subset of the other,
and no column of the index has a class for the last slot. -/
theorem repeated_column_matched :
    transformFkeyCheckAttrs (fun _ i => 1978 + i) [1, 2, 2] (keyedCatalog [1, 1, 2]) keyedTable
        [0, 0, 0] = .ok (uniqueIndex [1, 1, 2], [1979, 1980, 0]) ∧
      ¬ TargetMatched (fun _ i => 1978 + i) [1, 2, 2] (keyedCatalog [1, 1, 2]) keyedTable
        [0, 0, 0] := by
  have hRun : transformFkeyCheckAttrs (fun _ i => 1978 + i) [1, 2, 2]
      (keyedCatalog [1, 1, 2]) keyedTable [0, 0, 0] =
        .ok (uniqueIndex [1, 1, 2], [1979, 1980, 0]) := by
    decide
  refine ⟨hRun, fun h => ?_⟩
  have hBacks := (h.sound _ _ hRun).2.1
  exact absurd hBacks.columns (by decide)

end PgTuning.Backend.FkeyCheck
