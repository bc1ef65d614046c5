import Mathlib.Order.WellFounded
import Mathlib.Tactic.Common

/-!
# Chains of nodes linked to their successors

`next` gives each node at most one successor. `Before next a b` says that `b` is reached from `a` by
one link or more. `insertAfter` puts a new node between a node and its successor, and the lemmas say
that the order of the old nodes does not change by it and where the new node stands.
-/

namespace PgTuning.Lib.Chain

variable {α : Type} {next : α → Option α}

/-- `b` is reached from `a` by one link or more. -/
def Before (next : α → Option α) : α → α → Prop :=
  Relation.TransGen fun a b => next a = some b

/-- Every chain ends: no node has infinitely many successors. -/
def Terminates (next : α → Option α) : Prop := WellFounded fun b a => next a = some b

theorem Terminates.not_before_self (h : Terminates next) (a : α) : ¬Before next a a := by
  induction a using h.induction with
  | _ a ih =>
    intro hLoop
    obtain ⟨b, hNext, hBack⟩ := Relation.TransGen.head'_iff.mp hLoop
    exact ih b hNext (Relation.TransGen.tail' hBack hNext)

/-- Where links are not shared, what is before the successor of `a` is `a` and what is before
`a`. -/
theorem before_next_iff (hInj : ∀ x y c, next x = some c → next y = some c → x = y) {a b d : α}
    (hNext : next a = some b) : Before next d b ↔ d = a ∨ Before next d a := by
  constructor
  · intro hBefore
    obtain ⟨c, hReach, hc⟩ := Relation.TransGen.tail'_iff.mp hBefore
    obtain rfl := hInj _ _ _ hc hNext
    exact Relation.reflTransGen_iff_eq_or_transGen.mp hReach |>.imp_left Eq.symm
  · rintro (rfl | hBefore)
    · exact .single hNext
    · exact hBefore.tail hNext

variable [DecidableEq α] {p r : α}

/-- The new node `r` between `p` and the successor of `p`. -/
def insertAfter (next : α → Option α) (p r : α) (a : α) : Option α :=
  if a = p then some r else if a = r then next p else next a

/-- The old node that stands for a node: the new one follows `p`. -/
def anchor (p r a : α) : α := if a = r then p else a

/-- `r` is not yet part of a chain. -/
structure New (next : α → Option α) (p r : α) : Prop where
  ne : r ≠ p
  unlinked : ∀ a, next a ≠ some r

theorem insertAfter_self : insertAfter next p r p = some r := if_pos rfl

variable (h : New next p r)
include h

theorem insertAfter_new : insertAfter next p r r = next p := by
  simp [insertAfter, h.ne]

omit h in
theorem insertAfter_of_ne {a : α} (hp : a ≠ p) (hr : a ≠ r) : insertAfter next p r a = next a := by
  simp [insertAfter, hp, hr]

variable {a b : α}

/-- The links of the new chain, told by the old one. -/
theorem insertAfter_eq_some :
    insertAfter next p r a = some b ↔
      (a = p ∧ b = r) ∨ (b ≠ r ∧ a ≠ p ∧ next (anchor p r a) = some b) := by
  by_cases hp : a = p
  · subst hp
    simp [insertAfter_self, eq_comm]
  · by_cases hr : a = r
    · subst hr
      simp only [insertAfter_new h, anchor, hp, false_and, false_or, not_false_eq_true,
        ne_eq, true_and]
      exact ⟨fun hb => ⟨fun hEq => h.unlinked p (hEq ▸ hb), hb⟩, And.right⟩
    · simp only [insertAfter_of_ne hp hr, anchor, if_neg hr, hp, false_and, false_or, ne_eq,
        not_false_eq_true, true_and]
      exact ⟨fun hb => ⟨fun hEq => h.unlinked a (hEq ▸ hb), hb⟩, And.right⟩

/-- Each end of a new path, told by the old chain: induction along the path. -/
private theorem before_of_insertAfter (hBefore : Before (insertAfter next p r) a b) :
    (b ≠ r → Before next (anchor p r a) b) ∧
      (b = r → anchor p r a = p ∨ Before next (anchor p r a) p) := by
  have hp : anchor p r p = p := by simp [anchor]
  induction hBefore with
  | single hLink =>
    rcases (insertAfter_eq_some h).mp hLink with ⟨rfl, rfl⟩ | ⟨hb, -, hOld⟩
    · exact ⟨fun hNe => absurd rfl hNe, fun _ => .inl hp⟩
    · exact ⟨fun _ => .single hOld, fun hEq => absurd hEq hb⟩
  | @tail c b hReach hLink ih =>
    rcases (insertAfter_eq_some h).mp hLink with ⟨rfl, rfl⟩ | ⟨hb, -, hOld⟩
    · exact ⟨fun hNe => absurd rfl hNe, fun _ => .inr (ih.1 h.ne.symm)⟩
    · refine ⟨fun _ => ?_, fun hEq => absurd hEq hb⟩
      by_cases hc : c = r
      · rw [anchor, if_pos hc] at hOld
        rcases ih.2 hc with hEq | hFar
        · rw [hEq]
          exact .single hOld
        · exact hFar.tail hOld
      · rw [anchor, if_neg hc] at hOld
        exact (ih.1 hc).tail hOld

section

variable (hr : next r = none)
include hr

/-- A link of the old chain is one link of the new chain, or the two links through `r`. -/
theorem insertAfter_before (hBefore : Before next a b) : Before (insertAfter next p r) a b := by
  have hStep : ∀ x y, next x = some y → Before (insertAfter next p r) x y := by
    intro x y hLink
    by_cases hx : x = p
    · subst hx
      exact .head insertAfter_self (.single ((insertAfter_new h).trans hLink))
    · have hxr : x ≠ r := fun hEq => by simp [hEq, hr] at hLink
      exact .single ((insertAfter_of_ne hx hxr).trans hLink)
  induction hBefore with
  | single hLink => exact hStep _ _ hLink
  | tail _ hLink ih => exact ih.trans (hStep _ _ hLink)

theorem before_insertAfter (hb : b ≠ r) :
    Before (insertAfter next p r) a b ↔ Before next (anchor p r a) b := by
  refine ⟨fun hNew => (before_of_insertAfter h hNew).1 hb, fun hOld => ?_⟩
  by_cases ha : a = r
  · rw [anchor, if_pos ha] at hOld
    subst ha
    obtain ⟨c, hNext, hRest⟩ := Relation.TransGen.head'_iff.mp hOld
    have hLink := (insertAfter_new h).trans hNext
    rcases Relation.reflTransGen_iff_eq_or_transGen.mp hRest with rfl | hFar
    · exact .single hLink
    · exact .head hLink (insertAfter_before h hr hFar)
  · rw [anchor, if_neg ha] at hOld
    exact insertAfter_before h hr hOld

theorem before_insertAfter_new {a : α} (ha : a ≠ r) :
    Before (insertAfter next p r) a r ↔ a = p ∨ Before next a p := by
  constructor
  · intro hNew
    simpa [anchor, ha] using (before_of_insertAfter h hNew).2 rfl
  · rintro (rfl | hOld)
    · exact .single insertAfter_self
    · exact (insertAfter_before h hr hOld).tail insertAfter_self

/-- Nodes whose old stand-ins are on one chain are on one chain. -/
theorem comparable_insertAfter (hEnds : Terminates next)
    (hOld : anchor p r a = anchor p r b ∨ Before next (anchor p r a) (anchor p r b) ∨
      Before next (anchor p r b) (anchor p r a)) :
    a = b ∨ Before (insertAfter next p r) a b ∨ Before (insertAfter next p r) b a := by
  -- one direction of the order, for both of the last two cases
  have hLift : ∀ x y, Before next (anchor p r x) (anchor p r y) →
      Before (insertAfter next p r) x y := by
    intro x y hxy
    by_cases hy : y = r
    · rw [show anchor p r y = p from if_pos hy] at hxy
      have hx : x ≠ r := by
        rintro rfl
        rw [anchor, if_pos rfl] at hxy
        exact hEnds.not_before_self p hxy
      rw [anchor, if_neg hx] at hxy
      exact hy ▸ (before_insertAfter_new h hr hx).mpr (.inr hxy)
    · rw [show anchor p r y = y from if_neg hy] at hxy
      exact (before_insertAfter h hr hy).mpr hxy
  rcases hOld with hEq | hBefore | hAfter
  · by_cases ha : a = r <;> by_cases hb : b = r
    · exact .inl (ha.trans hb.symm)
    · obtain rfl : p = b := by simpa [anchor, ha, hb] using hEq
      exact .inr (.inr (ha ▸ .single insertAfter_self))
    · obtain rfl : a = p := by simpa [anchor, ha, hb] using hEq
      exact .inr (.inl (hb ▸ .single insertAfter_self))
    · exact .inl (by simpa [anchor, ha, hb] using hEq)
  · exact .inr (.inl (hLift a b hBefore))
  · exact .inr (.inr (hLift b a hAfter))

end

theorem terminates_insertAfter (hEnds : Terminates next) : Terminates (insertAfter next p r) := by
  have hOld : ∀ a, a ≠ r → Acc (fun b a => insertAfter next p r a = some b) a := by
    intro a
    induction a using hEnds.induction with
    | _ a ih =>
      intro ha
      refine ⟨a, fun b hLink => ?_⟩
      by_cases hp : a = p
      · -- the link leads to the new node, and from there to the old successor
        subst hp
        obtain rfl : r = b := Option.some.inj (insertAfter_self.symm.trans hLink)
        refine ⟨_, fun c hNext => ih c ?_ ?_⟩
        · exact (insertAfter_new h).symm.trans hNext
        · exact fun hEq => h.unlinked a (hEq ▸ (insertAfter_new h).symm.trans hNext)
      · rw [insertAfter_of_ne hp ha] at hLink
        exact ih b hLink fun hEq => h.unlinked a (hEq ▸ hLink)
  refine ⟨fun a => ?_⟩
  by_cases ha : a = r
  · refine ⟨a, fun b hLink => hOld b fun hEq => ?_⟩
    rw [ha, insertAfter_new h] at hLink
    exact h.unlinked p (hEq ▸ hLink)
  · exact hOld a ha

end PgTuning.Lib.Chain
