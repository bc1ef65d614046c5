import Mathlib.Algebra.Ring.Nat
import Mathlib.Data.List.Basic
import Mathlib.Data.List.Pairwise

/-!
# A block of memory

A memory is a function of addresses. `move` and `store` are `memmove` and `memcpy`,
`slice` reads a range. `stackSegs` moves segments one after the other up against a
boundary. When they are taken from the highest one down, no move destroys a segment
that is still to be moved: this is what makes compaction in place work.
-/

namespace PgTuning.Lib.Memory

open List

variable {α β : Type}

/-- Copy `n` cells from `src` to `dst`, which may overlap. -/
def move (m : Nat → α) (dst src n : Nat) : Nat → α :=
  fun a => if dst ≤ a ∧ a < dst + n then m (src + (a - dst)) else m a

def store (m : Nat → α) (dst : Nat) (l : List α) : Nat → α :=
  fun a => if dst ≤ a then l.getD (a - dst) (m a) else m a

def slice (m : Nat → α) (off n : Nat) : List α := (range n).map fun k => m (off + k)

variable {dst n : Nat} {m : Nat → α}

theorem move_outside {src a : Nat} (h : a < dst ∨ dst + n ≤ a) : move m dst src n a = m a := by
  unfold move
  rw [if_neg (by omega)]

theorem move_inside {src k : Nat} (h : k < n) : move m dst src n (dst + k) = m (src + k) := by
  unfold move
  rw [if_pos (by omega), Nat.add_sub_cancel_left]

theorem store_outside {a : Nat} {l : List α} (h : a < dst ∨ dst + l.length ≤ a) :
    store m dst l a = m a := by
  unfold store
  split
  · rw [getD_eq_getElem?_getD, getElem?_eq_none (by omega)]
    rfl
  · rfl

theorem length_slice (m : Nat → α) (off n : Nat) : (slice m off n).length = n := by
  simp [slice]

theorem slice_congr {m' : Nat → α} {off off' : Nat}
    (h : ∀ k < n, m (off + k) = m' (off' + k)) : slice m off n = slice m' off' n := by
  refine map_congr_left fun k hk => h k ?_
  simpa using hk

theorem slice_store (m : Nat → α) (dst : Nat) (l : List α) :
    slice (store m dst l) dst l.length = l := by
  refine ext_getElem (length_slice _ _ _) fun k h₁ h₂ => ?_
  simp [slice, store, h₂]

/-! ## Stacking segments -/

variable (src len : β → Nat) (touch : β → Nat → (Nat → α) → Nat → α)

/-- Move segments up against `top`, one after the other; after each move something else
is written with `touch`. -/
def stackSegs : Nat → (Nat → α) → List β → Nat × (Nat → α)
  | top, m, [] => (top, m)
  | top, m, s :: ss =>
    stackSegs (top - len s) (touch s (top - len s) (move m (top - len s) (src s) (len s))) ss

/-- The segments lie below `top`, in decreasing order and without overlap. -/
def Below : Nat → List β → Prop
  | _, [] => True
  | top, s :: ss => src s + len s ≤ top ∧ Below (src s) ss

/-- Where the segments go. -/
def tops : Nat → List β → List Nat
  | _, [] => []
  | top, s :: ss => (top - len s) :: tops (top - len s) ss

variable {src len touch}

variable {ss : List β} {top : Nat} {s : β}

theorem Below.le_of_mem (h : Below src len top ss) (hs : s ∈ ss) : src s + len s ≤ top := by
  induction ss generalizing top with
  | nil => cases hs
  | cons s₀ ss ih =>
    have hFirst := h.1
    rcases mem_cons.mp hs with hs | hs
    · rw [hs]
      exact hFirst
    · have hRest := ih h.2 hs
      omega

theorem below_of_pairwise (hOrder : ss.Pairwise fun s s' => src s' + len s' ≤ src s)
    (hTop : ∀ s ∈ ss, src s + len s ≤ top) : Below src len top ss := by
  induction ss generalizing top with
  | nil => trivial
  | cons s ss ih =>
    obtain ⟨hFirst, hRest⟩ := pairwise_cons.mp hOrder
    exact ⟨hTop s mem_cons_self, ih hRest hFirst⟩

variable {floor : Nat}

def total (len : β → Nat) (ss : List β) : Nat := (ss.map len).sum

theorem total_cons (s : β) (ss : List β) : total len (s :: ss) = len s + total len ss := rfl

theorem total_dvd {d : Nat} (h : ∀ s ∈ ss, d ∣ len s) : d ∣ total len ss := by
  induction ss with
  | nil => exact Nat.dvd_zero d
  | cons s ss ih =>
    exact Nat.dvd_add (h s mem_cons_self) (ih fun s' hs' => h s' (mem_cons_of_mem s hs'))

theorem Below.total_le (h : Below src len top ss) (hFloor : ∀ s ∈ ss, floor ≤ src s)
    (hTop : floor ≤ top) : floor + total len ss ≤ top := by
  induction ss generalizing top with
  | nil => exact hTop
  | cons s ss ih =>
    have hRest := ih h.2 (fun s' hs' => hFloor s' (mem_cons_of_mem s hs')) (hFloor s mem_cons_self)
    have hFirst := h.1
    rw [total_cons]
    omega

theorem stackSegs_top (ss : List β) : ∀ (top : Nat) (m : Nat → α),
    (stackSegs src len touch top m ss).1 = top - total len ss := by
  induction ss with
  | nil =>
    intro top m
    rfl
  | cons s ss ih =>
    intro top m
    rw [stackSegs, ih, total_cons]
    omega

/-- `touch` writes below the floor only. -/
def TouchesBelow (touch : β → Nat → (Nat → α) → Nat → α) (floor : Nat) (ss : List β) : Prop :=
  ∀ s ∈ ss, ∀ top (m : Nat → α) a, floor ≤ a → touch s top m a = m a

theorem TouchesBelow.tail (h : TouchesBelow touch floor (s :: ss)) :
    TouchesBelow touch floor ss := fun s' hs' => h s' (mem_cons_of_mem s hs')

/-- Nothing is written between the floor and the new boundary, nor above the old one. -/
theorem stackSegs_frame (ss : List β) (hTouch : TouchesBelow touch floor ss) :
    ∀ {top : Nat} {m : Nat → α} {a : Nat}, floor ≤ a → floor + total len ss ≤ top →
      a < top - total len ss ∨ top ≤ a → (stackSegs src len touch top m ss).2 a = m a := by
  induction ss with
  | nil =>
    intro top m a _ _ _
    rfl
  | cons s ss ih =>
    intro top m a ha hFits hOut
    rw [total_cons] at hFits hOut
    rw [stackSegs, ih hTouch.tail ha (by omega) (by omega), hTouch s mem_cons_self _ _ a ha,
      move_outside (by omega)]

/-- Every segment arrives with its contents. -/
theorem stackSegs_moved (ss : List β) (hTouch : TouchesBelow touch floor ss)
    (hFloor : ∀ s ∈ ss, floor ≤ src s) : ∀ {top₀ top : Nat} {m : Nat → α},
    Below src len top₀ ss → top₀ ≤ top → floor ≤ top →
    ∀ x ∈ ss.zip (tops len top ss), ∀ k < len x.1,
      (stackSegs src len touch top m ss).2 (x.2 + k) = m (src x.1 + k) := by
  induction ss with
  | nil =>
    intro top₀ top m _ _ _ x hx
    cases hx
  | cons s ss ih =>
    intro top₀ top m hBelow hTop hTopFloor x hx k hk
    have hFirst := hBelow.1
    have hFloorRest : ∀ s' ∈ ss, floor ≤ src s' := fun s' hs' => hFloor s' (mem_cons_of_mem s hs')
    have hSrc := hFloor s mem_cons_self
    have hTotal := hBelow.2.total_le hFloorRest hSrc
    have hHead := hTouch s mem_cons_self
    rw [stackSegs]
    rcases mem_cons.mp hx with hx | hx
    · -- The segment itself: the later moves stay below it.
      subst hx
      rw [stackSegs_frame ss hTouch.tail (by omega) (by omega) (by omega), hHead _ _ _ (by omega),
        move_inside hk]
    · -- A later segment has not been touched when its turn comes.
      rw [ih hTouch.tail hFloorRest hBelow.2 (show src s ≤ top - len s by omega) (by omega) x hx k hk]
      have hMem : x.1 ∈ ss := (of_mem_zip hx).1
      have hLow : src x.1 + len x.1 ≤ src s := Below.le_of_mem hBelow.2 hMem
      have hHigh := hFloorRest x.1 hMem
      rw [hHead _ _ _ (by omega), move_outside (by omega)]

/-- The places are below `top` and do not overlap. -/
theorem tops_pairwise (ss : List β) : ∀ {top : Nat}, total len ss ≤ top →
    (∀ x ∈ ss.zip (tops len top ss), top - total len ss ≤ x.2 ∧ x.2 + len x.1 ≤ top) ∧
      (ss.zip (tops len top ss)).Pairwise fun x y => y.2 + len y.1 ≤ x.2 := by
  induction ss with
  | nil =>
    intro top _
    exact ⟨fun x hx => absurd hx not_mem_nil, .nil⟩
  | cons s ss ih =>
    intro top hTotal
    rw [total_cons] at hTotal ⊢
    obtain ⟨hBounds, hOrder⟩ := ih (show total len ss ≤ top - len s by omega)
    refine ⟨fun x hx => ?_, pairwise_cons.mpr ⟨fun y hy => (hBounds y hy).2, hOrder⟩⟩
    rcases mem_cons.mp hx with hx | hx
    · subst hx
      simp only
      omega
    · have hRest := hBounds x hx
      omega

theorem tops_apart (hTotal : total len ss ≤ top) {x y : β × Nat}
    (hx : x ∈ ss.zip (tops len top ss)) (hy : y ∈ ss.zip (tops len top ss)) (hne : x ≠ y) :
    x.2 + len x.1 ≤ y.2 ∨ y.2 + len y.1 ≤ x.2 := by
  have hSymm : Std.Symm fun x y : β × Nat => x.2 + len x.1 ≤ y.2 ∨ y.2 + len y.1 ≤ x.2 :=
    ⟨fun x y hxy => hxy.symm⟩
  have hPairs : (ss.zip (tops len top ss)).Pairwise
      fun x y => x.2 + len x.1 ≤ y.2 ∨ y.2 + len y.1 ≤ x.2 :=
    (tops_pairwise ss hTotal).2.imp fun hxy => Or.inr hxy
  exact hPairs.forall hx hy hne

theorem tops_dvd {d : Nat} (ss : List β) (hLen : ∀ s ∈ ss, d ∣ len s) :
    ∀ {top : Nat}, d ∣ top → ∀ x ∈ ss.zip (tops len top ss), d ∣ x.2 := by
  induction ss with
  | nil =>
    intro top _ x hx
    cases hx
  | cons s ss ih =>
    intro top hTop
    have hFirst := Nat.dvd_sub hTop (hLen s mem_cons_self)
    exact forall_mem_cons.mpr ⟨hFirst, ih (fun s' hs' => hLen s' (mem_cons_of_mem s hs')) hFirst⟩

theorem exists_mem_zip_tops (hs : s ∈ ss) (top : Nat) : ∃ d, (s, d) ∈ ss.zip (tops len top ss) := by
  induction ss generalizing top with
  | nil => cases hs
  | cons s₀ ss ih =>
    rcases mem_cons.mp hs with hs | hs
    · rw [hs]
      exact ⟨_, mem_cons_self⟩
    · obtain ⟨d, hd⟩ := ih hs (top - len s₀)
      exact ⟨d, mem_cons_of_mem _ hd⟩

end PgTuning.Lib.Memory
