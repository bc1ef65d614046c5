import Mathlib.Data.List.Basic
import PgTuning.Backend.Analyze

/-!
# The flags of a query tree

Every `Query` node, every analysed `EXPLAIN` and every `CREATE INDEX` carries a `hypothetical` flag.
`Query.flags` lists them all, node by node. By recursion over the raw parse tree: analysed without
the flag, a statement yields a tree without the flag (`transformPreparable_plain`); and the flag
decides nothing but flags: with and without it the same statements are rejected, with the same
errors (`transformPreparable_related`).
-/

namespace PgTuning.Backend

open PgTuning.Lib.Outcome Yields
open List (Forall forall_cons forall_append)

/-! ## Listing the flags -/

def RawStmt.flags : RawStmt → List Bool
  | .explain stmt => [stmt.hypothetical]
  | .index stmt => [stmt.hypothetical]
  | .utility _ indexes _ => indexes.map IndexStmt.hypothetical
  | _ => []

mutual

def Query.flags : Query → List Bool
  | .mk _ hypothetical utilityStmt _ _ cteList rtable subLinks _ _ =>
    hypothetical :: (utilityStmt.flags ++ cteFlags cteList ++ rteFlags rtable ++
      queriesFlags subLinks)

def UtilityStmt.flags : UtilityStmt → List Bool
  | .explain query _ hypothetical => hypothetical :: query.flags
  | .raw stmt => stmt.flags
  | _ => []

def cteFlags : List CteEntry → List Bool
  | [] => []
  | .mk _ ctequery :: ctes => ctequery.flags ++ cteFlags ctes

def rteFlags : List RangeTblEntry → List Bool
  | [] => []
  | rte :: rtable => rte.flags ++ rteFlags rtable

def RangeTblEntry.flags : RangeTblEntry → List Bool
  | .subquery subquery _ => subquery.flags
  | .function subLinks => queriesFlags subLinks
  | .values subLinks => queriesFlags subLinks
  | _ => []

def queriesFlags : List Query → List Bool
  | [] => []
  | q :: qs => q.flags ++ queriesFlags qs

end

abbrev AllFalse : List Bool → Prop := Forall (· = false)

def Query.Plain (q : Query) : Prop := AllFalse q.flags

abbrev PlainQueries : List Query → Prop := Forall Query.Plain

abbrev PlainRtable : List RangeTblEntry → Prop := Forall fun rte => AllFalse rte.flags

abbrev PlainCtes : List CteEntry → Prop := Forall fun | .mk _ ctequery => ctequery.Plain

theorem allFalse_queriesFlags : ∀ qs, AllFalse (queriesFlags qs) ↔ PlainQueries qs
  | [] => by simp [queriesFlags]
  | q :: qs => by simp [queriesFlags, allFalse_queriesFlags qs, Query.Plain]

theorem allFalse_rteFlags : ∀ rtable, AllFalse (rteFlags rtable) ↔ PlainRtable rtable
  | [] => by simp [rteFlags]
  | rte :: rtable => by simp [rteFlags, allFalse_rteFlags rtable]

theorem allFalse_cteFlags : ∀ ctes, AllFalse (cteFlags ctes) ↔ PlainCtes ctes
  | [] => by simp [cteFlags]
  | .mk _ q :: ctes => by
    simp only [cteFlags, forall_append, allFalse_cteFlags ctes, forall_cons]
    rfl

variable {utilityStmt : UtilityStmt}

theorem plain_mk {commandType : CmdType} {hypothetical : Bool} {hasModifyingCTE : Bool}
    {intoClause : Option IntoClause} {cteList : List CteEntry} {rtable : List RangeTblEntry}
    {subLinks : List Query} {setOperations : Option SetOperationTree} {rowMarks : List Nat} :
    (Query.mk commandType hypothetical utilityStmt hasModifyingCTE intoClause cteList
      rtable subLinks setOperations rowMarks).Plain ↔
      hypothetical = false ∧ AllFalse utilityStmt.flags ∧
        PlainCtes cteList ∧ PlainRtable rtable ∧ PlainQueries subLinks := by
  rw [Query.Plain, Query.flags]
  simp only [forall_cons, forall_append, allFalse_cteFlags, allFalse_rteFlags,
    allFalse_queriesFlags, and_assoc]

@[simp] theorem flags_none : UtilityStmt.none.flags = [] := by
  rw [UtilityStmt.flags]
  · intro query options hypothetical h
    cases h
  · intro stmt h
    cases h

/-! ## Without the flag -/

/-- What a `FROM` clause or the source of an `INSERT` adds. -/
def PlainRels (x : List RangeTblEntry × List Query) : Prop :=
  PlainRtable x.1 ∧ PlainQueries x.2

structure PlainClauses (clauses : Clauses) : Prop where
  cteList : Yields PlainCtes clauses.cteList
  sortClause : Yields PlainQueries clauses.sortClause
  limitOffset : Yields PlainQueries clauses.limitOffset
  limitCount : Yields PlainQueries clauses.limitCount

theorem plainRels_single {rte : RangeTblEntry} (h : AllFalse rte.flags) : PlainRels ([rte], []) := by
  simpa [PlainRels] using h

theorem plainRels_subquery {q : Query} (hq : q.Plain) (aliasname : String) :
    PlainRels ([.subquery q aliasname], []) :=
  plainRels_single hq

theorem yields_append {x y : Except Error (List Query)} (hx : Yields PlainQueries x)
    (hy : Yields PlainQueries y) :
    Yields PlainQueries (do
      let q ← x
      let qs ← y
      return q ++ qs) := by
  apply hx.bind
  intro q hq
  apply hy.bind
  intro qs hqs
  exact yields_pure (forall_append.mpr ⟨hq, hqs⟩)

theorem transformRangeVar_plain (env : Analyzer) (pstate : ParseState) (rv : RangeVar) :
    Yields (fun rte => rte.flags = []) (transformRangeVar env pstate rv) := by
  apply Yields.ite
  · apply yields_pure
    rfl
  · apply after
    intro relid
    apply yields_pure
    rfl

variable {selectQuery : Except Error Query}

theorem insertSelect_plain (h : Yields Query.Plain selectQuery) :
    Yields PlainRels (insertSelect selectQuery) := by
  apply h.bind
  intro q hq
  apply after
  intro _
  exact yields_pure (plainRels_subquery hq _)

theorem setOperationLeaf_plain (base : Nat) (h : Yields Query.Plain selectQuery) :
    Yields (fun x => PlainRtable x.2) (setOperationLeaf base selectQuery) := by
  apply h.bind
  intro q hq
  apply yields_pure
  exact (plainRels_subquery hq _).1

section Plain

variable (env : Analyzer)

mutual

theorem transformExpr_plain (pstate : ParseState) :
    ∀ e : Expr, Yields PlainQueries (transformExpr env pstate e)
  | .leaf text => by
    rw [transformExpr]
    exact yields_pure (by simp)
  | .node args => by
    rw [transformExpr]
    exact transformExprs_plain pstate args
  | .subLink testexpr subselect => by
    rw [transformExpr]
    apply (transformSelect_plain pstate.child false subselect).bind
    intro qtree hq
    apply after
    intro _
    apply after
    intro _
    apply (transformExprs_plain pstate testexpr).bind
    intro tests ht
    exact yields_pure (by simp [hq, ht])

theorem transformExprs_plain (pstate : ParseState) :
    ∀ es : List Expr, Yields PlainQueries (transformExprs env pstate es)
  | [] => by
    rw [transformExprs]
    exact yields_pure (by simp)
  | e :: es => by
    rw [transformExprs]
    exact yields_append (transformExpr_plain pstate e) (transformExprs_plain pstate es)

theorem transformRows_plain (pstate : ParseState) :
    ∀ rows : List (List Expr), Yields PlainQueries (transformRows env pstate rows)
  | [] => by
    rw [transformRows]
    exact yields_pure (by simp)
  | row :: rows => by
    rw [transformRows]
    exact yields_append (transformExprs_plain pstate row) (transformRows_plain pstate rows)

theorem transformFromClauseItem_plain (pstate : ParseState) :
    ∀ item : FromItem, Yields PlainRels (transformFromClauseItem env pstate item)
  | .rangeVar rv => by
    rw [transformFromClauseItem]
    apply (transformRangeVar_plain env pstate rv).bind
    intro rte hrte
    exact yields_pure (plainRels_single (by simp [hrte]))
  | .rangeSubselect subquery aliasname => by
    rw [transformFromClauseItem]
    apply (transformSelect_plain pstate.child false subquery).bind
    intro query hq
    apply after
    intro _
    apply after
    intro _
    exact yields_pure (plainRels_subquery hq aliasname)
  | .rangeFunction funccallnode => by
    rw [transformFromClauseItem]
    apply (transformExpr_plain pstate funccallnode).bind
    intro subLinks hs
    exact yields_pure (plainRels_single ((allFalse_queriesFlags _).mpr hs))
  | .joinExpr larg rarg quals => by
    rw [transformFromClauseItem]
    apply (transformFromClauseItem_plain pstate larg).bind
    intro l hl
    apply (transformFromClauseItem_plain pstate rarg).bind
    intro r hr
    apply (transformExprs_plain pstate quals).bind
    intro subLinks hs
    exact yields_pure (by simp [PlainRels, RangeTblEntry.flags, hl.1, hr.1, hl.2, hr.2, hs])

theorem transformFromClause_plain (pstate : ParseState) :
    ∀ items : List FromItem, Yields PlainRels (transformFromClause env pstate items)
  | [] => by
    rw [transformFromClause]
    exact yields_pure (by simp [PlainRels])
  | item :: items => by
    rw [transformFromClause]
    apply (transformFromClauseItem_plain pstate item).bind
    intro x hx
    apply (transformFromClause_plain pstate items).bind
    intro xs hxs
    exact yields_pure (by simp [PlainRels, hx.1, hx.2, hxs.1, hxs.2])

theorem analyzeCTEs_plain (pstate : ParseState) (recursive : Bool) :
    ∀ ctes : List CommonTableExpr,
      Yields (PlainCtes) (analyzeCTEs env pstate recursive ctes)
  | [] => by
    rw [analyzeCTEs]
    exact yields_pure (by simp)
  | .mk ctename ctequery :: ctes => by
    rw [analyzeCTEs]
    apply (transformPreparable_plain pstate.child ctequery).bind
    intro query hq
    apply after
    intro _
    apply after
    intro _
    apply after
    intro _
    apply (analyzeCTEs_plain _ recursive ctes).bind
    intro rest hr
    exact yields_pure (by simp [hr, hq])

theorem transformSelect_plain (pstate : ParseState) (cleared : Bool) :
    ∀ stmt : SelectStmt, Yields Query.Plain (transformSelect env pstate false cleared stmt)
  | .mk recursive ctes sortClause limitOffset limitCount lockingClause body => by
    rw [transformSelect]
    apply after
    intro _
    apply transformSelectBody_plain
    exact ⟨after fun _ => analyzeCTEs_plain _ recursive ctes,
      transformExprs_plain _ sortClause, transformExprs_plain _ limitOffset,
      transformExprs_plain _ limitCount⟩

theorem transformSelectBody_plain (pstate : ParseState) (cleared : Bool)
    {clauses : Clauses} (hc : PlainClauses clauses) :
    ∀ body : SelectBody,
      Yields Query.Plain (transformSelectBody env pstate false cleared clauses body)
  | .simple distinctClause intoClause targetList fromClause whereClause groupClause
      havingClause windowClause => by
      rw [transformSelectBody]
      apply hc.cteList.bind
      intro cteList hcte
      apply (transformFromClause_plain pstate fromClause).bind
      intro rels hrels
      apply (transformExprs_plain pstate targetList).bind
      intro target htarget
      apply (transformExprs_plain pstate whereClause).bind
      intro qual hqual
      apply (transformExprs_plain pstate havingClause).bind
      intro having hhaving
      apply hc.sortClause.bind
      intro sort hsort
      apply (transformExprs_plain pstate groupClause).bind
      intro group hgroup
      apply (transformExprs_plain pstate distinctClause).bind
      intro distinct hdistinct
      apply hc.limitOffset.bind
      intro limitOffset hoffset
      apply hc.limitCount.bind
      intro limitCount hcount
      apply (transformExprs_plain pstate windowClause).bind
      intro window hwindow
      apply yields_pure
      simp [plain_mk, hcte, hrels.1, hrels.2, htarget, hqual, hhaving, hsort, hgroup, hdistinct,
        hoffset, hcount, hwindow]
  | .values intoClause valuesLists => by
    rw [transformSelectBody]
    apply hc.cteList.bind
    intro cteList hcte
    apply (transformRows_plain pstate valuesLists).bind
    intro subLinks hsub
    apply hc.sortClause.bind
    intro sort hsort
    apply hc.limitOffset.bind
    intro limitOffset hoffset
    apply hc.limitCount.bind
    intro limitCount hcount
    apply after
    intro _
    apply yields_pure
    have hRows : AllFalse (RangeTblEntry.values subLinks).flags := (allFalse_queriesFlags _).mpr hsub
    simp [plain_mk, hcte, hRows, hsort, hoffset, hcount]
  | .setOp op all larg rarg => by
    rw [transformSelectBody]
    apply hc.cteList.bind
    intro cteList hcte
    apply after
    intro _
    apply (transformSetOperationTree_plain pstate true 0 larg).bind
    intro l hl
    apply (transformSetOperationTree_plain pstate false l.2.length rarg).bind
    intro r hr
    apply hc.sortClause.bind
    intro sort hsort
    apply hc.limitOffset.bind
    intro limitOffset hoffset
    apply hc.limitCount.bind
    intro limitCount hcount
    apply yields_pure
    simp [plain_mk, hcte, hl, hr, hsort, hoffset, hcount]

theorem transformSetOperationTree_plain (pstate : ParseState) (leftmost : Bool) (base : Nat) :
    ∀ stmt : SelectStmt, Yields (fun x => PlainRtable x.2)
      (transformSetOperationTree env pstate leftmost base stmt)
  | .mk recursive ctes sortClause limitOffset limitCount lockingClause body => by
    rw [transformSetOperationTree]
    apply after
    intro _
    apply after
    intro _
    extract_lets names inner leaf
    have hLeaf : Yields (fun x => PlainRtable x.2) leaf :=
      setOperationLeaf_plain base (after fun _ => transformSelectBody_plain inner leftmost
        ⟨after fun _ => analyzeCTEs_plain _ recursive ctes,
          transformExprs_plain _ sortClause, transformExprs_plain _ limitOffset,
          transformExprs_plain _ limitCount⟩ body)
    clear_value leaf
    cases body with
    | simple => exact hLeaf
    | values => exact hLeaf
    | setOp op all larg rarg =>
      apply Yields.ite hLeaf
      apply (transformSetOperationTree_plain pstate leftmost base larg).bind
      intro l hl
      apply (transformSetOperationTree_plain pstate false _ rarg).bind
      intro r hr
      exact yields_pure (by simp [hl, hr])

theorem transformInsertSource_plain (pstate : ParseState) :
    ∀ selectStmt : Option SelectStmt,
      Yields PlainRels (transformInsertSource env pstate false selectStmt)
  | none => by
    rw [transformInsertSource]
    exact yields_pure (by simp [PlainRels])
  | some (.mk recursive ctes sortClause limitOffset limitCount lockingClause body) => by
    have hGeneral := insertSelect_plain (transformSelect_plain pstate.child false
      (.mk recursive ctes sortClause limitOffset limitCount lockingClause body))
    rw [transformInsertSource.eq_def]
    cases body with
    | simple => exact hGeneral
    | setOp => exact hGeneral
    | values into valuesLists =>
      apply Yields.ite hGeneral
      apply (transformRows_plain pstate valuesLists).bind
      intro subLinks hs
      apply Yields.ite
      · exact yields_pure (plainRels_single ((allFalse_queriesFlags _).mpr hs))
      · exact yields_pure ⟨by simp, hs⟩

theorem transformPreparable_plain (pstate : ParseState) :
    ∀ stmt : PreparableStmt, Yields Query.Plain (transformPreparable env pstate false stmt)
  | .select stmt => by
    rw [transformPreparable]
    exact transformSelect_plain pstate false stmt
  | .insert recursive ctes relation selectStmt returningList => by
    rw [transformPreparable]
    apply after
    intro _
    apply after
    intro _
    apply (analyzeCTEs_plain _ recursive ctes).bind
    intro cteList hcte
    apply after
    intro relid
    apply (transformInsertSource_plain _ selectStmt).bind
    intro source hsource
    apply (transformExprs_plain _ returningList).bind
    intro returning hret
    apply yields_pure
    simp [plain_mk, RangeTblEntry.flags, hcte, hsource.1, hsource.2, hret]
  | .update recursive ctes relation targetList fromClause whereClause
      returningList => by
      rw [transformPreparable]
      apply after
      intro _
      apply after
      intro _
      apply (analyzeCTEs_plain _ recursive ctes).bind
      intro cteList hcte
      apply after
      intro relid
      apply (transformFromClause_plain _ fromClause).bind
      intro rels hrels
      apply (transformExprs_plain _ targetList).bind
      intro target htarget
      apply (transformExprs_plain _ whereClause).bind
      intro qual hqual
      apply (transformExprs_plain _ returningList).bind
      intro returning hret
      apply yields_pure
      simp [plain_mk, RangeTblEntry.flags, hcte, hrels.1, hrels.2, htarget, hqual, hret]
  | .delete recursive ctes relation usingClause whereClause returningList => by
    rw [transformPreparable]
    apply after
    intro _
    apply after
    intro _
    apply (analyzeCTEs_plain _ recursive ctes).bind
    intro cteList hcte
    apply after
    intro relid
    apply (transformFromClause_plain _ usingClause).bind
    intro rels hrels
    apply (transformExprs_plain _ whereClause).bind
    intro qual hqual
    apply (transformExprs_plain _ returningList).bind
    intro returning hret
    apply yields_pure
    simp [plain_mk, RangeTblEntry.flags, hcte, hrels.1, hrels.2, hqual, hret]

end

end Plain

theorem transformDeclareCursorStmt_plain (env : Analyzer) (pstate : ParseState)
    (stmt : DeclareCursorStmt) :
    Yields Query.Plain (transformDeclareCursorStmt env pstate stmt false) := by
  apply after
  intro _
  apply after
  intro _
  apply (transformSelect_plain env pstate false stmt.query).bind
  intro result hq
  apply after
  intro _
  apply yields_pure
  cases result
  rw [Query.withUtility, plain_mk]
  rw [plain_mk] at hq
  exact ⟨hq.1, by simp [UtilityStmt.flags], hq.2.2⟩

theorem utilityQuery_plain (h : AllFalse utilityStmt.flags) : (utilityQuery utilityStmt).Plain := by
  unfold utilityQuery
  rw [plain_mk]
  exact ⟨rfl, h, by simp, by simp, by simp⟩

theorem transformExplainable_plain (env : Analyzer) (pstate : ParseState) :
    ∀ stmt : ExplainableStmt, Yields Query.Plain (transformExplainable env pstate false stmt)
  | .preparable stmt => transformPreparable_plain env pstate stmt
  | .declareCursor stmt => transformDeclareCursorStmt_plain env pstate stmt
  | .execute name params into =>
    yields_pure (utilityQuery_plain (by simp [UtilityStmt.flags]))

/-! ## With and without the flag -/

def Query.setHypothetical (b : Bool) : Query → Query
  | .mk commandType _ utilityStmt hasModifyingCTE intoClause cteList rtable subLinks
      setOperations rowMarks =>
      .mk commandType b utilityStmt hasModifyingCTE intoClause cteList rtable subLinks
        setOperations rowMarks

/-- The same query but for its own flag. -/
def Alike (q q' : Query) : Prop := ∃ b, q' = q.setHypothetical b

theorem alike_refl (q : Query) : Alike q q := by
  cases q
  exact ⟨_, rfl⟩

variable (env : Analyzer) (pstate : ParseState) (h h' : Bool)

/-- The flag only ends up in the flag of the query. -/
theorem transformSelect_related (cleared : Bool) (stmt : SelectStmt) :
    Related Alike (transformSelect env pstate h cleared stmt)
      (transformSelect env pstate h' cleared stmt) := by
  obtain ⟨recursive, ctes, sortClause, limitOffset, limitCount, lockingClause, body⟩ := stmt
  apply Related.after
  intro _
  cases body with
  | values => exact related_refl alike_refl _
  | setOp => exact related_refl alike_refl _
  | simple =>
    iterate 11
      apply Related.after
      intro _
    exact .ok ⟨h', rfl⟩

theorem transformInsertSource_related (selectStmt : Option SelectStmt) :
    Related (fun _ _ => True) (transformInsertSource env pstate h selectStmt)
      (transformInsertSource env pstate h' selectStmt) := by
  cases selectStmt with
  | none =>
    exact .ok trivial
  | some stmt =>
    have hGeneral : Related (fun _ _ => True)
        (insertSelect (transformSelect env pstate.child h false stmt))
        (insertSelect (transformSelect env pstate.child h' false stmt)) := by
      apply (transformSelect_related env pstate.child h h' false stmt).bind
      rintro q _ ⟨b, rfl⟩
      cases q
      -- the check of the source does not look at the flag
      apply Related.after
      intro _
      exact .ok trivial
    obtain ⟨recursive, ctes, sortClause, limitOffset, limitCount, lockingClause, body⟩ := stmt
    rw [transformInsertSource.eq_def, transformInsertSource.eq_def]
    cases body with
    | simple => exact hGeneral
    | setOp => exact hGeneral
    | values into valuesLists =>
      dsimp only
      by_cases hIs : (SelectStmt.mk recursive ctes sortClause limitOffset
        limitCount lockingClause (.values into valuesLists)).isGeneral
      · rw [if_pos hIs, if_pos hIs]
        exact hGeneral
      · rw [if_neg hIs, if_neg hIs]
        exact related_refl (fun _ => trivial) _

theorem transformPreparable_related (stmt : PreparableStmt) :
    Related (fun _ _ => True) (transformPreparable env pstate h stmt)
      (transformPreparable env pstate h' stmt) := by
  cases stmt with
  | select stmt =>
    exact (transformSelect_related env pstate h h' false stmt).weaken fun _ _ _ => trivial
  | insert recursive ctes relation selectStmt returningList =>
    iterate 4
      apply Related.after
      intro _
    apply (transformInsertSource_related env _ h h' selectStmt).bind
    intro x x' _
    apply Related.after
    intro _
    exact .ok trivial
  | update recursive ctes relation targetList fromClause whereClause returningList =>
    iterate 8
      apply Related.after
      intro _
    exact .ok trivial
  | delete recursive ctes relation usingClause whereClause returningList =>
    iterate 7
      apply Related.after
      intro _
    exact .ok trivial

theorem transformExplainable_related (stmt : ExplainableStmt) :
    Related (fun _ _ => True) (transformExplainable env pstate h stmt)
      (transformExplainable env pstate h' stmt) := by
  cases stmt with
  | preparable stmt => exact transformPreparable_related env pstate h h' stmt
  | declareCursor stmt =>
    apply Related.after
    intro _
    apply Related.after
    intro _
    apply (transformSelect_related env pstate h h' false stmt.query).bind
    rintro q _ ⟨b, rfl⟩
    cases q
    apply Related.after
    intro _
    exact .ok trivial
  | execute name params into => exact .ok trivial

end PgTuning.Backend
