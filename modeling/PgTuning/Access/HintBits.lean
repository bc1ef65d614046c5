import PgTuning.Access.Tqual

/-!
# What hint bits may be set

A hint bit records a fact about a transaction that is over. `Justified` lists when the routines of
`tqual.c` set one; every call changes the header by justified hints only (`Hinted`), and these keep
a header `Sound`: what it says about its transactions is true.
-/

namespace PgTuning.Access

variable {x : Xacts} {b : Backend} {t t' : HeapTupleHeader} {xid : TransactionId}

namespace HeapTupleHeader

/-- The transaction that has deleted or updated the tuple, or is about to. -/
def deleter (t : HeapTupleHeader) : Option TransactionId :=
  if t.xmaxInvalid || t.isLocked || t.xmaxIsMulti then none else some t.xmax

/-- An old-style `VACUUM FULL` that moved the tuple has left it in place: it was not
moved away, or was moved here, by a transaction that committed. -/
def inPlace (t : HeapTupleHeader) (x : Xacts) : Bool :=
  if t.movedOff then !x.committed t.xvac
  else if t.movedIn then x.committed t.xvac
  else true

/-- The backend's own transaction has inserted the tuple. -/
def OwnInsert (t : HeapTupleHeader) (b : Backend) : Prop :=
  t.xminCommitted = false ∧ t.movedOff = false ∧ t.movedIn = false ∧
    b.isCurrent t.xmin = true

/-- What the header says about its transactions is true. `own` are the ids of one
transaction that is running: a tuple it inserted can only be deleted by itself. -/
structure Sound (t : HeapTupleHeader) (x : Xacts) (own : TransactionId → Bool) : Prop where
  xmin : x.Known t.xmin
  xmax : ∀ xid, t.deleter = some xid → x.Known xid
  moved : t.movedOff = true ∨ t.movedIn = true →
    x.committed t.xmin = true ∧ x.Known t.xvac ∧ x.running t.xvac = false
  xminCommitted : t.xminCommitted = true →
    x.committed t.xmin = true ∧ t.inPlace x = true
  xminInvalid : t.xminInvalid = true → t.xminCommitted = false →
    x.running t.xmin = false ∧ (x.committed t.xmin = false ∨ t.inPlace x = false)
  xmaxCommitted : t.xmaxCommitted = true → ∀ xid, t.deleter = some xid →
    x.committed xid = true
  own : own t.xmin = true → ∀ xid, t.deleter = some xid →
    own xid = true ∨ x.running xid = false ∧ x.committed xid = false
  /-- Several transactions can only lock a tuple. -/
  multi : t.xmaxIsMulti = true → t.isLocked = true

end HeapTupleHeader

open HeapTupleHeader

/-- What a backend knows when it sets a hint bit. -/
def Justified (x : Xacts) (b : Backend) (t : HeapTupleHeader) : Hint → Prop
  | .xminCommitted => t.xminInvalid = false ∧
      if t.movedOff || t.movedIn then
        x.running t.xvac = false ∧ x.transactionIdDidCommit b.transactionXmin t.xvac =
          !t.movedOff
      else x.running t.xmin = false ∧
        x.transactionIdDidCommit b.transactionXmin t.xmin = true
  | .xminInvalid => t.xminCommitted = false ∧
      if t.movedOff || t.movedIn then
        x.running t.xvac = false ∧ x.transactionIdDidCommit b.transactionXmin t.xvac =
          t.movedOff
      else x.running t.xmin = false ∧
        x.transactionIdDidCommit b.transactionXmin t.xmin = false
  | .xmaxCommitted => x.running t.xmax = false ∧
      x.transactionIdDidCommit b.transactionXmin t.xmax = true
  | .xmaxInvalid => t.deleter = none ∨
      (x.running t.xmax = false ∧
        x.transactionIdDidCommit b.transactionXmin t.xmax = false) ∨
      (t.OwnInsert b ∧ b.isCurrent t.xmax = false)

/-- The header after some justified hints. -/
inductive Hinted (x : Xacts) (b : Backend) (t : HeapTupleHeader) : HeapTupleHeader → Prop
  | refl : Hinted x b t t
  | hint {t' : HeapTupleHeader} (h : Hint) (before : Hinted x b t t')
      (justified : Justified x b t' h) : Hinted x b t (t'.withHint h)

theorem Hinted.setHintBits (hBefore : Hinted x b t t') (h : Hint) (xid : TransactionId)
    (hJust : Justified x b t' h) : Hinted x b t (t'.setHintBits b h xid) := by
  unfold HeapTupleHeader.setHintBits
  split
  · exact hBefore
  · exact .hint h hBefore hJust

theorem Hinted.same (hHinted : Hinted x b t t') :
    t'.xmin = t.xmin ∧ t'.movedOff = t.movedOff ∧ t'.movedIn = t.movedIn ∧
      t'.field3 = t.field3 := by
  induction hHinted with
  | refl => exact ⟨rfl, rfl, rfl, rfl⟩
  | hint hint hBefore hJust ih => cases hint <;> exact ih

theorem Hinted.keeps_xminCommitted (hHinted : Hinted x b t t')
    (hBit : t.xminCommitted) : t'.xminCommitted := by
  induction hHinted with
  | refl => exact hBit
  | hint hint hBefore hJust ih => cases hint <;> first | exact ih | rfl

theorem setHintBits_invalid (t : HeapTupleHeader) (b : Backend) (h : Hint) :
    t.setHintBits b h invalidTransactionId = t.withHint h := by
  simp [HeapTupleHeader.setHintBits, transactionIdIsValid]

/-! ## The deleting transaction of a header -/

theorem deleter_of_locked (h : t.isLocked) : t.deleter = none := by
  simp [HeapTupleHeader.deleter, h]

theorem deleter_of_multi (h : t.xmaxIsMulti) : t.deleter = none := by
  simp [HeapTupleHeader.deleter, h]

theorem deleter_of_invalid (h : t.xmaxInvalid) : t.deleter = none := by
  simp [HeapTupleHeader.deleter, h]

theorem deleter_withHint_xmaxInvalid (t : HeapTupleHeader) :
    (t.withHint .xmaxInvalid).deleter = none := deleter_of_invalid rfl

theorem xmax_of_deleter (h : t.deleter = some xid) : t.xmax = xid := by
  unfold HeapTupleHeader.deleter at h
  split at h
  · cases h
  · injection h

theorem deleter_cases (t : HeapTupleHeader) :
    t.deleter = none ∧
      (t.xmaxInvalid ∨ t.isLocked ∨ t.xmaxIsMulti) ∨
    t.deleter = some t.xmax ∧
      t.xmaxInvalid = false ∧ t.isLocked = false ∧ t.xmaxIsMulti = false := by
  unfold HeapTupleHeader.deleter
  split_ifs with hFlags <;> simp_all [or_assoc]

/-! ## The inserting transaction -/

variable {α : Type} {own : TransactionId → Bool}

/-- The current transactions of a backend are running. -/
def Xacts.Runs (x : Xacts) (b : Backend) : Prop :=
  ∀ xid, b.isCurrent xid = true → x.running xid = true

/-- The backend is not that of the transaction with the ids `own`. -/
def Backend.Other (b : Backend) (own : TransactionId → Bool) : Prop :=
  ∀ xid, own xid = true → b.isCurrent xid = false

theorem not_current (hb : x.Runs b) (hRun : x.running xid = false) : b.isCurrent xid = false :=
  Bool.eq_false_iff.mpr fun hCurrent => ne_true_of_eq_false hRun (hb xid hCurrent)

section

variable (hx : x.WellFormed) (ht : t.Sound x own)
include hx ht

/-- The inserter of a moved tuple has committed, so that the hint is about its place; that
of another tuple is about the inserter. -/
theorem justified_xminCommitted :
    Justified x b t .xminCommitted ↔
      t.xminInvalid = false ∧ x.committed t.xmin ∧ t.inPlace x := by
  refine and_congr_right fun _ => ?_
  by_cases hMoved : t.movedOff ∨ t.movedIn
  · obtain ⟨hXmin, hKnown, hRun⟩ := ht.moved hMoved
    rw [hx.didCommit_eq hKnown hRun]
    cases hOff : t.movedOff <;> simp_all [inPlace]
  · rw [hx.over_iff ht.xmin]
    have hOver : x.committed t.xmin → x.running t.xmin = false := hx.not_running
    simp_all [inPlace]

theorem justified_xminInvalid :
    Justified x b t .xminInvalid ↔ t.xminCommitted = false ∧ x.running t.xmin = false ∧
      (x.committed t.xmin = false ∨ t.inPlace x = false) := by
  refine and_congr_right fun _ => ?_
  by_cases hMoved : t.movedOff ∨ t.movedIn
  · obtain ⟨hXmin, hKnown, hRun⟩ := ht.moved hMoved
    rw [hx.didCommit_eq hKnown hRun]
    have := hx.not_running hXmin
    cases hOff : t.movedOff <;> simp_all [inPlace]
  · rw [hx.over_iff ht.xmin]
    simp_all [inPlace]

/-- The outcomes of the test of the inserting transaction: it has committed and the tuple is in
place; it is the backend's own; or it has not inserted the tuple, or not yet. -/
theorem checkXmin_elim {invisible other : α} {ownCase rest : HeapTupleHeader → α × HeapTupleHeader}
    {motive : α × HeapTupleHeader → Prop} (hb : x.Runs b)
    (hRest : ∀ t', Hinted x b t t' → x.committed t.xmin → t.inPlace x →
      (t.movedOff ∨ t.movedIn → t'.xminCommitted) → motive (rest t'))
    (hOwn : t.OwnInsert b → motive (ownCase t))
    (hElse : ∀ r t', r = invisible ∨ r = other → Hinted x b t t' → b.isCurrent t.xmin = false →
      x.committed t.xmin = false ∨ t.inPlace x = false → motive (r, t')) :
    motive (checkXmin x b t invisible other ownCase rest) := by
  unfold checkXmin
  simp only [setHintBits_invalid, Xacts.transactionIdIsInProgress]
  cases hCommitted : t.xminCommitted with
  | true =>
    obtain ⟨hXmin, hPlace⟩ := ht.xminCommitted hCommitted
    exact hRest t .refl hXmin hPlace fun _ => hCommitted
  | false =>
  cases hInvalid : t.xminInvalid with
  | true =>
    obtain ⟨hRun, hGone⟩ := ht.xminInvalid hInvalid hCommitted
    exact hElse invisible t (.inl rfl) .refl (not_current hb hRun) hGone
  | false =>
  have hValid : x.committed t.xmin → t.inPlace x → Justified x b t .xminCommitted :=
    fun hXmin hPlace => (justified_xminCommitted hx ht).mpr ⟨hInvalid, hXmin, hPlace⟩
  have hGone : x.running t.xmin = false → x.committed t.xmin = false ∨ t.inPlace x = false →
      Justified x b t .xminInvalid :=
    fun hRun h => (justified_xminInvalid hx ht).mpr ⟨hCommitted, hRun, h⟩
  by_cases hMoved : t.movedOff ∨ t.movedIn
  · -- A moved tuple: its inserter committed and the moving transaction is over.
    obtain ⟨hXmin, hKnown, hRun⟩ := ht.moved hMoved
    have hOver := hx.not_running hXmin
    have hCase : motive (if t.inPlace x then rest (t.withHint .xminCommitted)
        else (invisible, t.withHint .xminInvalid)) := by
      cases hPlace : t.inPlace x with
      | true => exact hRest _ (.hint _ .refl (hValid hXmin hPlace)) hXmin hPlace fun _ => rfl
      | false =>
        exact hElse _ _ (.inl rfl) (.hint _ .refl (hGone hOver (.inr hPlace)))
          (not_current hb hOver) (.inr hPlace)
    rw [not_current hb hRun, hx.didCommit_eq hKnown hRun]
    cases hOff : t.movedOff <;> cases hVac : x.committed t.xvac <;> simp_all [inPlace]
  · have hNone := hMoved
    push Not at hNone
    simp only [Bool.not_eq_true] at hNone
    have hPlace : t.inPlace x := by simp [inPlace, hNone]
    rw [hNone.1, hNone.2]
    cases hMine : b.isCurrent t.xmin with
    | true => exact hOwn ⟨hCommitted, hNone.1, hNone.2, hMine⟩
    | false =>
    cases hRun : x.running t.xmin with
    | true => exact hElse other t (.inr rfl) .refl hMine (.inl (hx.not_committed hRun))
    | false =>
    rw [hx.didCommit_eq ht.xmin hRun]
    cases hXmin : x.committed t.xmin with
    | true =>
      exact hRest _ (Hinted.refl.setHintBits _ _ (hValid hXmin hPlace)) hXmin hPlace
        fun hTrue => absurd hTrue hMoved
    | false =>
      exact hElse _ _ (.inl rfl) (.hint _ .refl (hGone hRun (.inl hXmin))) hMine (.inl hXmin)

/-! ## Hints keep a header sound -/

theorem HeapTupleHeader.Sound.withHint {h : Hint}
    (hJust : Justified x b t h) : (t.withHint h).Sound x own := by
  cases h with
  | xminCommitted =>
    have hInserted := ((justified_xminCommitted hx ht).mp hJust).2
    exact { ht with
      xminCommitted := fun _ => hInserted
      xminInvalid := fun _ hNot => by cases hNot }
  | xminInvalid =>
    have hGone := ((justified_xminInvalid hx ht).mp hJust).2
    exact { ht with xminInvalid := fun _ _ => hGone }
  | xmaxCommitted =>
    refine { ht with xmaxCommitted := fun _ xid (hDeleter : t.deleter = some xid) => ?_ }
    have hEq := xmax_of_deleter hDeleter
    rw [← hx.didCommit_eq (ht.xmax xid hDeleter) (hEq ▸ hJust.1) b.transactionXmin, ← hEq]
    exact hJust.2
  | xmaxInvalid =>
    have hNever : ∀ {P : TransactionId → Prop} xid,
        (t.withHint .xmaxInvalid).deleter = some xid → P xid := by
      intro P xid hDeleter
      cases hDeleter
    exact { ht with xmax := hNever, xmaxCommitted := fun _ => hNever, own := fun _ => hNever }

theorem HeapTupleHeader.Sound.hinted (h : Hinted x b t t') : t'.Sound x own := by
  induction h with
  | refl => exact ht
  | hint h _ hJust ih => exact ih.withHint hx hJust

end

/-! ## Every call sets justified hints only -/

section Xmax

variable {t₀ : HeapTupleHeader} (h : Hinted x b t₀ t)
include h

theorem checkOwnXmax_hinted (hOwn : t.OwnInsert b) (live deleted : α) : Hinted x b t₀ (checkOwnXmax b t live deleted).2 := by
  unfold checkOwnXmax
  split_ifs
  case pos => exact h
  case pos => exact h
  case pos _ _ hOther =>
    exact h.setHintBits .xmaxInvalid invalidTransactionId (.inr (.inr ⟨hOwn, by simpa using hOther⟩))
  case neg => exact h

theorem Hinted.xmaxAborted (hRun : ¬x.running t.xmax)
    (hDid : ¬x.transactionIdDidCommit b.transactionXmin t.xmax) :
    Hinted x b t₀ (t.setHintBits b .xmaxInvalid invalidTransactionId) :=
  h.setHintBits _ _ (.inr (.inl ⟨by simpa using hRun, by simpa using hDid⟩))

theorem Hinted.xmaxDone (hRun : ¬x.running t.xmax)
    (hDid : x.transactionIdDidCommit b.transactionXmin t.xmax) :
    Hinted x b t₀ (t.setHintBits b .xmaxCommitted t.xmax) :=
  h.setHintBits _ _ ⟨by simpa using hRun, hDid⟩

theorem Hinted.xmaxLocked (hLocked : t.isLocked) :
    Hinted x b t₀ (t.setHintBits b .xmaxInvalid invalidTransactionId) :=
  h.setHintBits _ _ (.inl (deleter_of_locked hLocked))

theorem checkXmax_hinted {live deleted ownDeleted being : α}
    {multi : HeapTupleHeader → α × HeapTupleHeader}
    (hMulti : t.xmaxIsMulti → Hinted x b t₀ (multi t).2) :
    Hinted x b t₀ (checkXmax x b live deleted ownDeleted being multi t).2 := by
  unfold checkXmax Xacts.transactionIdIsInProgress
  split_ifs with _ _ _ hIs _ _ hRun hDid hLocked <;> try exact h
  · exact hMulti hIs
  · exact h.xmaxAborted hRun (by simpa using hDid)
  · exact h.xmaxLocked hLocked
  · exact h.xmaxDone hRun (by simpa using hDid)

theorem mvccRest_hinted (snapshot : Snapshot) :
    Hinted x b t₀ (mvccRest x b snapshot t).2 := by
  unfold mvccRest Xacts.transactionIdIsInProgress
  split_ifs with _ _ _ _ _ _ hRun hDid <;> try exact h
  · exact h.xmaxAborted hRun (by simpa using hDid)
  · exact h.xmaxDone hRun (by simpa using hDid)

theorem vacuumXmax_hinted (oldestXmin : TransactionId) :
    Hinted x b t₀ (vacuumXmax x b oldestXmin t).2 := by
  unfold vacuumXmax Xacts.transactionIdIsInProgress
  generalize (if (!transactionIdPrecedes t.xmax oldestXmin) then HtsvResult.recentlyDead
    else .dead) = finished
  split_ifs with _ hLocked _ _ _ _ _ _ hRun hDid <;> try exact h
  · exact h.xmaxLocked hLocked
  · exact h.xmaxLocked hLocked
  · exact h.xmaxDone hRun hDid
  · exact h.xmaxAborted hRun hDid

end Xmax

variable (hx : x.WellFormed) (ht : t.Sound x own) (hb : x.Runs b)
include hx ht hb

/-- The test of the inserting transaction sets justified hints, if what follows
does. -/
theorem checkXmin_hinted (invisible other : α)
    {ownCase rest : HeapTupleHeader → α × HeapTupleHeader}
    (hOwn : t.OwnInsert b → Hinted x b t (ownCase t).2)
    (hRest : ∀ t', Hinted x b t t' → Hinted x b t (rest t').2) :
    Hinted x b t (checkXmin x b t invisible other ownCase rest).2 :=
  checkXmin_elim (motive := fun r => Hinted x b t r.2) hx ht hb
    (fun t' hHinted _ _ _ => hRest t' hHinted) hOwn fun _ _ _ hHinted _ _ => hHinted

omit hx in
/-- For a sound header `HeapTupleSatisfiesVacuum` treats the inserting transaction as
the other routines do. -/
theorem heapTupleSatisfiesVacuum_eq (oldestXmin : TransactionId) : let inserting : HtsvResult :=
      if t.xmaxInvalid then .insertInProgress
      else if t.isLocked then .insertInProgress else .deleteInProgress
    heapTupleSatisfiesVacuum x b oldestXmin t =
      checkXmin x b t .dead inserting (fun t => (inserting, t)) (vacuumXmax x b oldestXmin) := by
  intro inserting
  have hInserting : (if t.xmaxInvalid then (HtsvResult.insertInProgress, t)
      else if t.isLocked then (.insertInProgress, t) else (.deleteInProgress, t)) =
      (inserting, t) := by
    unfold inserting
    split_ifs <;> rfl
  have hRunning : ∀ r rest : HtsvResult × HeapTupleHeader,
      (if x.running t.xmin then r else rest) =
        if b.isCurrent t.xmin then r else if x.running t.xmin then r else rest := by
    intro r rest
    by_cases hCurrent : b.isCurrent t.xmin
    · rw [if_pos hCurrent, if_pos (hb _ hCurrent)]
    · rw [if_neg hCurrent]
  unfold heapTupleSatisfiesVacuum Xacts.transactionIdIsInProgress
  rw [hInserting, hRunning]
  unfold checkXmin Xacts.transactionIdIsInProgress
  by_cases hMoved : t.movedOff ∨ t.movedIn
  · obtain ⟨-, -, hRun⟩ := ht.moved hMoved
    simp only [hRun, not_current hb hRun, Bool.not_false, Bool.false_eq_true, if_true, if_false]
  · push Not at hMoved
    simp only [hMoved.1, hMoved.2, Bool.false_eq_true, if_false]

theorem heapTupleSatisfiesToast_hinted : Hinted x b t (heapTupleSatisfiesToast x b t).2 := by
  by_cases hMoved : t.movedOff ∨ t.movedIn
  · have hEq : heapTupleSatisfiesToast x b t =
        checkXmin x b t false true (fun t => (true, t)) (fun t => (true, t)) := by
      unfold heapTupleSatisfiesToast checkXmin
      cases hMoved with
      | inl hOff => simp [hOff]
      | inr hIn => simp [hIn]
    rw [hEq]
    exact checkXmin_hinted hx ht hb _ _ (fun _ => .refl) (fun _ h => h)
  · push Not at hMoved
    unfold heapTupleSatisfiesToast
    simp only [hMoved.1, hMoved.2]
    split
    · exact .refl
    · split <;> exact .refl

inductive Routine where
  | self
  | now
  | any
  | toast
  | update (curcid : CommandId)
  | dirty
  | mvcc (snapshot : Snapshot)
  | vacuum (oldestXmin : TransactionId)

def Routine.header (x : Xacts) (b : Backend) (t : HeapTupleHeader) : Routine → HeapTupleHeader
  | .self => (heapTupleSatisfiesSelf x b t).2
  | .now => (heapTupleSatisfiesNow x b t).2
  | .any => (heapTupleSatisfiesAny t).2
  | .toast => (heapTupleSatisfiesToast x b t).2
  | .update curcid => (heapTupleSatisfiesUpdate x b curcid t).2
  | .dirty => (heapTupleSatisfiesDirty x b t).2
  | .mvcc snapshot => (heapTupleSatisfiesMVCC x b snapshot t).2
  | .vacuum oldestXmin => (heapTupleSatisfiesVacuum x b oldestXmin t).2

theorem Routine.hinted (r : Routine) : Hinted x b t (r.header x b t) := by
  cases r with
  | self =>
    exact checkXmin_hinted hx ht hb _ _ (fun hOwn => checkOwnXmax_hinted .refl hOwn _ _)
      (fun t' h => checkXmax_hinted h fun _ => h)
  | now =>
    refine checkXmin_hinted hx ht hb _ _ (fun hOwn => ?_)
      (fun t' h => checkXmax_hinted h fun _ => h)
    split
    · exact .refl
    · exact checkOwnXmax_hinted .refl hOwn _ _
  | any => exact .refl
  | toast => exact heapTupleSatisfiesToast_hinted hx ht hb
  | update curcid =>
    refine checkXmin_hinted hx ht hb _ _ (fun hOwn => ?_)
      (fun t' h => checkXmax_hinted h fun hMulti => ?_)
    · split
      · exact .refl
      · exact checkOwnXmax_hinted .refl hOwn _ _
    · split
      · exact h
      · exact h.setHintBits .xmaxInvalid invalidTransactionId (.inl (deleter_of_multi hMulti))
  | dirty =>
    exact checkXmin_hinted hx ht hb _ _ (fun hOwn => checkOwnXmax_hinted .refl hOwn _ _)
      (fun t' h => checkXmax_hinted h fun _ => h)
  | mvcc snapshot =>
    refine checkXmin_hinted hx ht hb _ _ (fun hOwn => ?_) (fun t' h => mvccRest_hinted h snapshot)
    split
    · exact .refl
    · exact checkOwnXmax_hinted .refl hOwn _ _
  | vacuum oldestXmin =>
    show Hinted x b t (heapTupleSatisfiesVacuum x b oldestXmin t).2
    rw [heapTupleSatisfiesVacuum_eq ht hb]
    exact checkXmin_hinted hx ht hb _ _ (fun _ => .refl)
      (fun t' h => vacuumXmax_hinted h oldestXmin)

end PgTuning.Access
