import FlowDiagram.Layout.Basic
import Mathlib.Algebra.BigOperators.Group.List.Basic
import Mathlib.Algebra.Order.Ring.Rat
import Mathlib.Order.Bounds.Basic
import Mathlib.Tactic.Linarith
/-!
# Rectangles over the rational numbers

A layout computes with any numbers that have the four operations and a comparison. On
rational numbers these are the usual ones: halves, maxima and sums are exact, and the
equations at the beginning say so.

A placed box is a rectangle. Two of them are separated where one is ahead of the other by
the distance of ranks, or above it by the distance of nodes. Some rectangles `Fill` a frame
that touches at least one of them on each side.
-/

namespace FlowDiagram.Layout

/-! ## Exact numbers -/

@[simp] theorem ofNat_rat (n : Nat) : (Coordinate.ofNat n : ℚ) = n := rfl

@[simp] theorem half_rat (x : ℚ) : half x = x / 2 := rfl

@[simp] theorem less_rat (x y : ℚ) : Coordinate.less x y = decide (x < y) := rfl

@[simp] theorem larger_rat (x y : ℚ) : larger x y = max x y := by
  rw [larger, less_rat]
  by_cases less : x < y
  · rw [if_pos (decide_eq_true less), max_eq_right less.le]
  · rw [if_neg (by simpa using less), max_eq_left (not_lt.mp less)]

theorem max?_eq_largest {xs : List ℚ} (nonempty : xs ≠ []) : xs.max? = some (largest xs) := by
  obtain ⟨x, rest, rfl⟩ := List.exists_cons_of_ne_nil nonempty
  have usual : (larger : ℚ → ℚ → ℚ) = max := funext₂ larger_rat
  rw [largest, usual, List.max?_cons']

theorem le_largest {x : ℚ} {xs : List ℚ} (member : x ∈ xs) : x ≤ largest xs :=
  (List.max?_le_iff (max?_eq_largest (List.ne_nil_of_mem member))).mp le_rfl x member

theorem largest_mem {xs : List ℚ} (nonempty : xs ≠ []) : largest xs ∈ xs :=
  List.max?_mem (max?_eq_largest nonempty)

theorem total_eq_sum (xs : List ℚ) : total xs = xs.sum := by
  rw [List.sum_eq_foldl, total]
  rfl

/-! ## Rectangles -/

namespace Spot

variable {ι : Type} (a b : Spot ι ℚ) (s : Spacing ℚ)

def left : ℚ := a.corner.x

def right : ℚ := a.corner.x + a.extent.width

def top : ℚ := a.corner.y

def bottom : ℚ := a.corner.y + a.extent.height

/-- One rectangle ends at least the distance of ranks before the other one begins. -/
def Ahead : Prop := a.right + s.rankSeparation ≤ b.left

/-- One rectangle ends at least the distance of nodes above the other one. -/
def Above : Prop := a.bottom + s.nodeSeparation ≤ b.top

/-- Two rectangles keep their distance, side by side or one above the other. -/
def Separated : Prop := (a.Ahead b s ∨ b.Ahead a s) ∨ a.Above b s ∨ b.Above a s

/-- One rectangle lies inside the other one. -/
structure Holds : Prop where
  left : a.left ≤ b.left
  right : b.right ≤ a.right
  top : a.top ≤ b.top
  bottom : b.bottom ≤ a.bottom

/-- A rectangle seen from another origin. -/
def moved (o : Point ℚ) : Spot ι ℚ := ⟨a.id, ⟨o.x + a.corner.x, o.y + a.corner.y⟩, a.extent⟩

variable {a b s} {c d : Spot ι ℚ}

theorem Separated.symm (h : a.Separated b s) : b.Separated a s := h.imp Or.symm Or.symm

theorem Holds.refl (a : Spot ι ℚ) : a.Holds a := ⟨le_rfl, le_rfl, le_rfl, le_rfl⟩

theorem Holds.trans (first : a.Holds b) (second : b.Holds c) : a.Holds c where
  left := first.left.trans second.left
  right := second.right.trans first.right
  top := first.top.trans second.top
  bottom := second.bottom.trans first.bottom

theorem Ahead.mono (h : a.Ahead b s) (ha : a.Holds c) (hb : b.Holds d) : c.Ahead d s := by
  rw [Ahead] at h ⊢
  linarith [ha.right, hb.left]

theorem Above.mono (h : a.Above b s) (ha : a.Holds c) (hb : b.Holds d) : c.Above d s := by
  rw [Above] at h ⊢
  linarith [ha.bottom, hb.top]

/-- What lies in separated rectangles is separated. -/
theorem Separated.mono (h : a.Separated b s) (ha : a.Holds c) (hb : b.Holds d) :
    c.Separated d s := by
  obtain (h | h) | h | h := h
  · exact .inl (.inl (h.mono ha hb))
  · exact .inl (.inr (h.mono hb ha))
  · exact .inr (.inl (h.mono ha hb))
  · exact .inr (.inr (h.mono hb ha))

section

variable (o : Point ℚ)

theorem left_moved : (a.moved o).left = o.x + a.left := rfl

theorem right_moved : (a.moved o).right = o.x + a.right := add_assoc _ _ _

theorem top_moved : (a.moved o).top = o.y + a.top := rfl

theorem bottom_moved : (a.moved o).bottom = o.y + a.bottom := add_assoc _ _ _

theorem Ahead.moved (h : a.Ahead b s) : (a.moved o).Ahead (b.moved o) s := by
  rw [Ahead, right_moved, left_moved, add_assoc]
  exact add_le_add_right h o.x

theorem Above.moved (h : a.Above b s) : (a.moved o).Above (b.moved o) s := by
  rw [Above, bottom_moved, top_moved, add_assoc]
  exact add_le_add_right h o.y

theorem Separated.moved (h : a.Separated b s) : (a.moved o).Separated (b.moved o) s :=
  h.imp (Or.imp (Ahead.moved o) (Ahead.moved o)) (Or.imp (Above.moved o) (Above.moved o))

end

end Spot

/-! ## Frames that are filled -/

section

variable {ι : Type}

/-- Some rectangles touch a frame from inside on each of its four sides. -/
structure Fill (spots : List (Spot ι ℚ)) (origin : Point ℚ) (extent : Extent ℚ) : Prop where
  left : IsLeast { x | ∃ a ∈ spots, a.left = x } origin.x
  right : IsGreatest { x | ∃ a ∈ spots, a.right = x } (origin.x + extent.width)
  top : IsLeast { y | ∃ a ∈ spots, a.top = y } origin.y
  bottom : IsGreatest { y | ∃ a ∈ spots, a.bottom = y } (origin.y + extent.height)

end

end FlowDiagram.Layout
