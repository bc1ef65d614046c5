import PgTuning.Storage.PageDelete

/-!
# Runs of page operations

However items are added, deleted and compacted, a well-formed page stays well formed
and the lines of the page change as the callers expect. The bounds of the item space
have to be aligned to begin with, as `PageInit` sets them: `PageAddItem` keeps whatever
alignment `pd_upper` has.
-/

namespace PgTuning.Bufpage

open PgTuning.Lib Nat

inductive Op where
  | addItem (item : List UInt8) (offsetNumber : Nat) (overwrite isHeap : Bool)
  | repairFragmentation
  | indexTupleDelete (offnum : Nat)
  | indexMultiDelete (itemnos : List Nat)

/-- Run a call; the number is what `PageAddItem` returns. -/
def Page.call (p : Page) : Op → Option (Page × Nat)
  | .addItem item offsetNumber overwrite isHeap =>
    p.pageAddItem item offsetNumber overwrite isHeap
  | .repairFragmentation => p.pageRepairFragmentation.map (·, 0)
  | .indexTupleDelete offnum => (p.pageIndexTupleDelete offnum).map (·, 0)
  | .indexMultiDelete itemnos => (p.pageIndexMultiDelete itemnos).map (·, 0)

/-- What the callers pass. An item has bytes, at most as many as an `int` can count with
padding. Tuples are deleted from index pages, where every line pointer has storage and
index tuples have aligned lengths; several of them are named in order. -/
def Op.Allowed (p : Page) : Op → Prop
  | .addItem item _ _ _ => item ≠ [] ∧ item.length ≤ 2147483640
  | .repairFragmentation => True
  | .indexTupleDelete offnum => AllStored p ∧ Named p [offnum]
  | .indexMultiDelete itemnos => AllStored p ∧ Named p itemnos

/-- How the lines of a page change. -/
def Op.Changes (p : Page) (r : Nat) (p' : Page) : Op → Prop
  | .addItem item offsetNumber overwrite _ =>
    (r = invalidOffsetNumber ∧ p'.lines = p.lines ∧ p'.block = p.block ∧ p'.pdLower = p.pdLower ∧
      p'.pdUpper = p.pdUpper ∧ p'.pdSpecial = p.pdSpecial) ∨
    (r ≠ invalidOffsetNumber ∧ Added p.lines item offsetNumber overwrite r p'.lines)
  | .repairFragmentation => p'.lines = p.lines
  | .indexTupleDelete offnum => p'.lines = removeFrom 1 p.lines [offnum]
  | .indexMultiDelete itemnos => p'.lines = removeFrom 1 p.lines itemnos

theorem Op.spec {p : Page} (h : WellFormed p) (op : Op) (hAllowed : op.Allowed p) :
    ∃ p' r, p.call op = some (p', r) ∧ WellFormed p' ∧ op.Changes p r p' := by
  cases op with
  | addItem item offsetNumber overwrite isHeap =>
    obtain ⟨p', r, hCall, hwf, hChange⟩ :=
      pageAddItem_spec h hAllowed.1 hAllowed.2 offsetNumber overwrite isHeap
    refine ⟨p', r, hCall, hwf, ?_⟩
    rcases hChange with ⟨hr, hint, hPage⟩ | hAdded
    · left
      rw [hPage]
      exact ⟨hr, rfl, rfl, rfl, rfl, rfl⟩
    · exact .inr hAdded
  | repairFragmentation =>
    obtain ⟨p', hCall, hwf, hLines⟩ := pageRepairFragmentation_spec h
    exact ⟨p', 0, by simp [Page.call, hCall], hwf, hLines⟩
  | indexTupleDelete offnum =>
    obtain ⟨hAll, hNamed⟩ := hAllowed
    obtain ⟨hoff, hoff'⟩ := hNamed.range offnum (by simp)
    obtain ⟨p', hCall, hwf, -, -, hLines⟩ :=
      pageIndexTupleDelete_spec h hoff hoff' hAll (hNamed.aligned offnum (by simp))
    refine ⟨p', 0, by simp [Page.call, hCall], hwf, ?_⟩
    show p'.lines = removeFrom 1 p.lines [offnum]
    rw [hLines, removeFrom_cons_nos (by simp) _ hoff, removeFrom_nil]
  | indexMultiDelete itemnos =>
    obtain ⟨p', hCall, hwf, hLines⟩ := pageIndexMultiDelete_spec h hAllowed.1 hAllowed.2
    exact ⟨p', 0, by simp [Page.call, hCall], hwf, hLines⟩

/-- All pages of a run are well formed, and every call changes the lines as it should. -/
def Correct : Page → List Op → Prop
  | p, [] => WellFormed p
  | p, op :: ops =>
    WellFormed p ∧
      (op.Allowed p → ∃ p' r, p.call op = some (p', r) ∧ op.Changes p r p' ∧ Correct p' ops)

/-- Every sequence of calls keeps a well-formed page well formed. -/
theorem page_correct (ops : List Op) (p : Page) (h : WellFormed p) : Correct p ops := by
  induction ops generalizing p with
  | nil => exact h
  | cons op ops ih =>
    refine ⟨h, fun hAllowed => ?_⟩
    obtain ⟨p', r, hCall, hwf, hChange⟩ := op.spec h hAllowed
    exact ⟨p', r, hCall, hChange, ih p' hwf⟩

theorem wellFormed_pageInit {specialSize : Nat} (h : maxalign specialSize + 24 ≤ blcksz) :
    WellFormed (Page.pageInit specialSize) := by
  have hn : (Page.pageInit specialSize).pageGetMaxOffsetNumber = 0 := maxOffset_of_lower rfl
  have hAligned := (le_maxalign specialSize).2.1
  unfold blcksz at h
  have hBound : 24 ≤ 8192 - maxalign specialSize := by omega
  refine ⟨⟨le_refl _, hBound, le_refl _, sub_le _ _, ?_, fun n h₁ h₂ => ?_,
    fun n m h₁ h₂ => ?_⟩, ?_, ?_⟩
  · rw [hn]
    rfl
  · rw [hn] at h₂
    omega
  · rw [hn] at h₂
    omega
  · show (8192 - maxalign specialSize) % 8 = 0
    omega
  · show (8192 - maxalign specialSize) % 8 = 0
    omega

/-- Three items on an index page, the second one before the first; two are deleted. -/
def indexRun : List Op :=
  [.addItem [1, 1, 1, 1, 1, 1, 1, 1] 1 false false, .addItem [2, 2, 2, 2, 2, 2, 2, 2] 1 false false,
    .addItem [3, 3, 3, 3, 3, 3, 3, 3] 2 false false, .indexTupleDelete 1, .indexMultiDelete [2],
    .repairFragmentation]

theorem page_correct_newPage :
    Correct (Page.pageInit 16) indexRun ∧
      (indexRun.foldlM (fun (p : Page) op => (p.call op).map Prod.fst) (Page.pageInit 16)).map
        Page.lines = some [.stored .normal [3, 3, 3, 3, 3, 3, 3, 3]] :=
  ⟨page_correct _ _ (wellFormed_pageInit (by decide)), by decide +kernel⟩

/-- An empty page whose item space ends at an odd place. -/
def oddPage : Page := ⟨false, 24, 8190, 8190, fun _ => 0⟩

/-- On a page that is laid out but whose `pd_upper` is not aligned, a new item is not
aligned either. -/
theorem oddPage_addItem : Laid oddPage ∧
    ∃ p', oddPage.call (.addItem [1] 0 false true) = some (p', 1) ∧ ¬ Laid p' := by
  have hn : oddPage.pageGetMaxOffsetNumber = 0 := rfl
  refine ⟨⟨by decide, by decide, by decide, by decide, rfl, fun n h₁ h₂ => ?_, fun n m h₁ h₂ => ?_⟩,
    _, rfl, fun hLaid => ?_⟩
  · rw [hn] at h₂
    omega
  · rw [hn] at h₂
    omega
  · exact absurd (hLaid.stored 1 (by decide) (by decide) (by decide)).1 (by decide)

end PgTuning.Bufpage
