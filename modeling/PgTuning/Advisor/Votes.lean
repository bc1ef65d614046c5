import PgTuning.Advisor.Master

/-!
# Votes of the administrator

`suggest(fPlus, fMinus)`: the indexes of `fPlus` are to be suggested, those of `fMinus` are not.
Each tuner prepends `fPlus` to what is left of its suggestion after removing `fMinus`, and the
master unites the results in tree sets.

A tree set of `fMinus` contains every index with the same columns, so no index of `fMinus` survives.
The union keeps the first of several indexes with the same columns, whatever their tables are, so an
index of `fPlus` is lost when another one of `fPlus`, on a different table or database, has the same
columns and comes first.
-/

namespace PgTuning.Advisor

open PgTuning.Lib PgTuning.Lib.Attempt PgTuning.Lib.FirstKept List Index

/-! ## The tree sets of the advisor -/

theorem contains_treeSet (xs : List Index) (a : Index) :
    (treeSet xs).contains a ↔ ∃ x ∈ xs, compareTo x a = .eq :=
  mem_insertAll xs a

/-- What a union holds: the first index of each class of columns. -/
theorem mem_union (s1 s2 : List Index) (a : Index) :
    a ∈ union s1 s2 ↔ firstOf compareTo (s1 ++ s2) a = some a := by
  unfold union treeSet insertAll
  rw [← foldl_append]
  exact mem_toList_insertAll (s1 ++ s2) a

variable {a b : Index} {s1 s2 L fMinus fPlus : List Index} {n : Nat}

theorem mem_of_mem_union (h : a ∈ union s1 s2) : a ∈ s1 ∨ a ∈ s2 := by
  have hFirst := (mem_union s1 s2 a).mp h
  exact mem_append.mp (mem_of_find?_eq_some hFirst)

theorem union_unique (ha : a ∈ union s1 s2) (hb : b ∈ union s1 s2)
    (hEq : compareTo b a = .eq) : b = a := by
  have ha' := (mem_union s1 s2 a).mp ha
  have hb' := (mem_union s1 s2 b).mp hb
  have hPred : (fun x => compareTo x b == Ordering.eq) =
      fun x => compareTo x a == Ordering.eq := by
    funext x
    rw [Std.TransCmp.congr_right hEq]
  unfold firstOf at ha' hb'
  rw [hPred, ha'] at hb'
  exact (Option.some.inj hb').symm

/-- The first member of a list of its class is in every union that starts with
the list. -/
theorem mem_union_of_firstOf (h : firstOf compareTo s1 a = some a) : a ∈ union s1 s2 := by
  rw [mem_union]
  unfold firstOf at h ⊢
  rw [find?_append, h]
  rfl

theorem mem_union_left (ha : a ∈ s1)
    (hUnique : ∀ b ∈ s1, compareTo b a = .eq → b = a) : a ∈ union s1 s2 := by
  obtain ⟨r, hMem, hFirst, hEq⟩ := exists_firstOf compareTo ha
  rw [hUnique r hMem hEq] at hFirst
  exact mem_union_of_firstOf hFirst

/-! ## `feedback` and `suggest` -/

/-- A suggestion after a vote: `fPlus` first, then indexes whose columns are not
those of a member of `fMinus`. -/
def VotedOn (fPlus fMinus : List Index) (sugg : Option (List Index)) : Prop :=
  ∃ rest, sugg = some (fPlus ++ rest) ∧
    ∀ x ∈ rest, ∀ m ∈ fMinus, Index.compareTo m x ≠ .eq

/-- The united suggestion after the votes of `n` tuners. -/
structure United (fPlus fMinus : List Index) (n : Nat) (L : List Index) : Prop where
  none : n = 0 → L = []
  from_votes : ∀ x ∈ L, x ∈ fPlus ∨ ∀ m ∈ fMinus, Index.compareTo m x ≠ .eq
  firsts : 0 < n → ∀ r, firstOf Index.compareTo fPlus r = some r → r ∈ L
  unique : ∀ a ∈ L, ∀ b ∈ L, Index.compareTo b a = .eq → b = a

theorem United.union {sugg : List Index} (h : United fPlus fMinus n L)
    (hVoted : VotedOn fPlus fMinus (some sugg)) : United fPlus fMinus (n + 1) (union L sugg) := by
  obtain ⟨rest, hSugg, hRest⟩ := hVoted
  injection hSugg with hSugg
  refine ⟨fun h0 => absurd h0 (by omega), ?_, ?_, ?_⟩
  · intro x hx
    rcases mem_of_mem_union hx with hx | hx
    · exact h.from_votes x hx
    · rw [hSugg] at hx
      rcases mem_append.mp hx with hx | hx
      · exact Or.inl hx
      · exact Or.inr (hRest x hx)
  · intro _ r hr
    rcases Nat.eq_zero_or_pos n with hn | hn
    · rw [h.none hn, mem_union, nil_append, hSugg]
      unfold firstOf at hr ⊢
      rw [find?_append, hr]
      rfl
    · have hMem := h.firsts hn r hr
      exact mem_union_left hMem fun b hb => h.unique r hMem b hb
  · intro a ha b hb hEq
    exact union_unique ha hb hEq

section Suggest

variable {σ : Type} (p : Prober σ) (fPlus fMinus : List Index)

theorem feedback_ends :
    Ends (fun _ => True) (feedback p fPlus fMinus)
      (fun _ (s : TunerState σ) => VotedOn fPlus fMinus s.tuner.sugg)
      (fun _ => True) := by
  refine ends_get_bind fun s _ => ?_
  refine (ends_trivial _).bind fun sugg => ?_
  refine (ends_trivial _).bind fun curCand => ?_
  refine (ends_trivial _).bind fun _ => ends_modify fun s _ => ?_
  refine ⟨_, rfl, ?_⟩
  intro x hx m hm hEq
  have hKept := (mem_filter.mp hx).2
  have hIn := (contains_treeSet fMinus x).mpr ⟨m, hm, hEq⟩
  rw [hIn] at hKept
  cases hKept

variable {p fPlus fMinus}

theorem votes_ends :
    Ends (fun _ => True)
      (forM (range k) fun i => onTuner i (feedback p fPlus fMinus))
      (fun _ (s : MasterState σ) =>
        ∀ i < k, VotedOn fPlus fMinus (s.master.ik i).sugg)
      (fun _ => True) := by
  refine (ends_forM_range (I := fun n (s : MasterState σ) =>
    ∀ i < n, VotedOn fPlus fMinus (s.master.ik i).sugg) k ?_).pre fun s _ i hi => absurd hi (by omega)
  intro i _ s hs
  have hVote := feedback_ends p fPlus fMinus ⟨s.master.ik i, s.con⟩ trivial
  unfold onTuner zoom
  revert hVote
  cases feedback p fPlus fMinus ⟨s.master.ik i, s.con⟩ with
  | ok a t =>
    intro hVote
    exact (Function.forall_update_iff s.master.ik fun j tuner => j < i + 1 →
      VotedOn fPlus fMinus tuner.sugg).mpr ⟨fun _ => hVote, fun j hji hj => hs j (by omega)⟩
  | error e t => exact fun _ => trivial

theorem unite_ends :
    Ends (fun (s : MasterState σ) =>
        ∀ i < k, VotedOn fPlus fMinus (s.master.ik i).sugg)
      (uniteSuggestions k)
      (fun _ s => United fPlus fMinus k s.master.overallSugg)
      (fun _ => True) := by
  refine Triple.bind (R := fun _ s =>
    (∀ i < k, VotedOn fPlus fMinus (s.master.ik i).sugg) ∧
      United fPlus fMinus 0 s.master.overallSugg) (ends_modify ?_) fun _ => ?_
  · intro s hs
    exact ⟨hs, ⟨fun _ => rfl, by simp, by omega, by simp⟩⟩
  · refine (ends_forM_range (I := fun n (s : MasterState σ) =>
      (∀ i < k, VotedOn fPlus fMinus (s.master.ik i).sugg) ∧
        United fPlus fMinus n s.master.overallSugg) k ?_).post fun _ s hs => hs.2
    intro i hi
    refine ends_get_bind fun s hs => ?_
    obtain ⟨rest, hSugg, -⟩ := hs.1 i hi
    refine Triple.bind_value (R := fun s' => s' = s) (a := fPlus ++ rest) ?_ (ends_modify ?_)
    · rw [hSugg]
      exact ends_pure fun s' hs' => ⟨rfl, hs'⟩
    · intro s' hs'
      rw [hs']
      refine ⟨hs.1, hs.2.union ?_⟩
      rw [← hSugg]
      exact hs.1 i hi

/-- Whatever `suggest` returns is a union of votes. -/
theorem suggest_united {s s' : MasterState σ} {L : List Index}
    (hRun : suggest p fPlus fMinus s = .ok L s') : United fPlus fMinus k L := by
  have hEnds : Ends (fun _ => True) (suggest p fPlus fMinus)
      (fun L (_ : MasterState σ) => United fPlus fMinus k L) (fun _ => True) := by
    refine votes_ends.bind fun _ => unite_ends.bind fun _ => ?_
    refine ends_get_bind fun s hs => ends_pure fun _ _ => hs
  exact hEnds.ok trivial hRun

end Suggest

/-! ## Honouring the votes -/

/-- The list has an index equal to each member of `fPlus` and none equal to a
member of `fMinus`. -/
def HonoursVotes (fPlus fMinus L : List Index) : Prop :=
  (∀ v ∈ fPlus, ∃ x ∈ L, x.equals v = true) ∧
    ∀ m ∈ fMinus, ¬ ∃ x ∈ L, x.equals m = true

theorem equals_symm (h : a.equals b) : b.equals a := by
  rw [equals_iff] at h ⊢
  exact ⟨h.1.symm, h.2.1.symm, h.2.2.symm⟩

theorem equals_trans {c : Index} (h : a.equals b) (h' : b.equals c) : a.equals c := by
  rw [equals_iff] at h h' ⊢
  exact ⟨h.1.trans h'.1, h.2.1.trans h'.2.1, h.2.2.trans h'.2.2⟩

/-- Votes against an index are always honoured. -/
theorem United.against (h : United fPlus fMinus n L)
    (hDisjoint : ∀ v ∈ fPlus, ∀ m ∈ fMinus, v.equals m = false) :
    ∀ m ∈ fMinus, ¬ ∃ x ∈ L, x.equals m := by
  rintro m hm ⟨x, hx, hEq⟩
  rcases h.from_votes x hx with hPlus | hRest
  · rw [hDisjoint x hPlus m hm] at hEq
    cases hEq
  · exact hRest m hm (compareTo_eq_of_equals (equals_symm hEq))

/-- Votes for an index are honoured exactly when no two of them shadow each
other. -/
theorem United.for_iff (hn : 0 < n) (h : United fPlus fMinus n L) :
    (∀ v ∈ fPlus, ∃ x ∈ L, x.equals v) ↔
      ∀ v ∈ fPlus, ∀ v' ∈ fPlus, compareTo v v' = .eq →
        v.equals v' := by
  -- The representative of a vote in `L` is the first vote with its columns.
  have hRep : ∀ v ∈ fPlus, ∃ r ∈ fPlus, r ∈ L ∧
      firstOf compareTo fPlus v = some r ∧ compareTo r v = .eq := by
    intro v hv
    obtain ⟨r, hMem, hFirst, hEq⟩ := exists_firstOf compareTo hv
    refine ⟨r, hMem, h.firsts hn r ?_, hFirst, hEq⟩
    rw [← hFirst]
    unfold firstOf
    congr 1
    funext x
    rw [Std.TransCmp.congr_right hEq]
  constructor
  · intro hFor v hv v' hv' hSame
    have hKept : ∀ u ∈ fPlus, ∀ r, firstOf compareTo fPlus u = some r →
        r.equals u := by
      intro u hu r hr
      obtain ⟨r', -, hL, hFirst, hEq⟩ := hRep u hu
      rw [hr] at hFirst
      injection hFirst with hFirst
      obtain ⟨x, hx, hxu⟩ := hFor u hu
      have hxr : compareTo x r' = .eq := by
        rw [Std.TransCmp.congr_right hEq]
        exact compareTo_eq_of_equals hxu
      rw [hFirst, ← h.unique r' hL x hx hxr]
      exact hxu
    obtain ⟨r, -, -, hFirst, -⟩ := hRep v hv
    have hFirst' : firstOf compareTo fPlus v' = some r := by
      rw [← hFirst]
      unfold firstOf
      congr 1
      funext x
      rw [Std.TransCmp.congr_right hSame]
    exact equals_trans (equals_symm (hKept v hv r hFirst)) (hKept v' hv' r hFirst')
  · intro hCond v hv
    obtain ⟨r, hMem, hL, -, hEq⟩ := hRep v hv
    exact ⟨r, hL, hCond r hMem v hv hEq⟩

/-- **When the votes are honoured.** For votes that do not contradict each other, a list that
`suggest` returns honours them exactly when votes for indexes on the same columns are votes for
equal indexes. -/
theorem suggest_honours_iff {σ : Type} (p : Prober σ) (fPlus fMinus : List Index)
    (s s' : MasterState σ) (L : List Index)
    (hDisjoint : ∀ v ∈ fPlus, ∀ m ∈ fMinus, v.equals m = false)
    (hRun : suggest p fPlus fMinus s = .ok L s') :
    HonoursVotes fPlus fMinus L ↔
      ∀ v ∈ fPlus, ∀ v' ∈ fPlus, Index.compareTo v v' = .eq →
        v.equals v' = true := by
  have hUnited := suggest_united hRun
  constructor
  · intro h
    exact (hUnited.for_iff (by decide)).mp h.1
  · intro h
    exact ⟨(hUnited.for_iff (by decide)).mpr h, hUnited.against hDisjoint⟩

/-- Votes for the column `c` of the tables `v` and `u`, against `t(a)`. -/
def voteV : Index := Index.new 10 (js ['v']) (js ['c']) true (js "it_dellstore2".toList)

def voteU : Index := Index.new 11 (js ['u']) (js ['c']) true (js "it_dellstore2".toList)

def voteA : Index := Index.new 12 (js ['t']) (js ['a']) true (js "it_dellstore2".toList)

/-- The candidate `t(b)` the first query has produced. -/
def candidateB : Index :=
  Index.new 2 (js ['t']) (js ['b']) true (js "it_dellstore2".toList)

theorem suggest_honours_single : HonoursVotes [voteV] [voteA] [candidateB, voteV] := by
  have hRun : returned (suggest (connectionProber calmServer) [voteV] [voteA])
      queriedState = some [candidateB, voteV] := by decide +kernel
  refine (suggest_honours_iff (connectionProber calmServer) [voteV] [voteA]
    queriedState _ _ ?_ (run_of_returned hRun)).mpr ?_
  · decide
  · decide

/-- After a first query, a vote for `v(c)` and `u(c)` suggests `v(c)` only. -/
theorem suggest_loses_vote :
    returned (suggest (connectionProber calmServer) [voteV, voteU] [voteA])
        queriedState = some [candidateB, voteV] ∧
      (∀ v ∈ [voteV, voteU], ∀ m ∈ [voteA], v.equals m = false) ∧
      ¬ HonoursVotes [voteV, voteU] [voteA] [candidateB, voteV] := by
  refine ⟨by decide +kernel, by decide, ?_⟩
  intro h
  obtain ⟨x, hx, hEq⟩ := h.1 voteU (by decide)
  revert x
  decide

end PgTuning.Advisor
