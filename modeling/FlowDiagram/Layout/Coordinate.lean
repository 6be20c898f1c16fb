/-!
# Coordinates

A layout is computed with the four operations, halves, natural numbers and a comparison.
It runs on doubles; on rational numbers the same computation is exact.
-/

namespace FlowDiagram.Layout

/-- The numbers that a layout is computed with. -/
class Coordinate (α : Type) extends Add α, Sub α, Mul α, Div α where
  ofNat : Nat → α
  less : α → α → Bool

instance : Coordinate Float where
  ofNat := Float.ofNat
  less x y := x < y

instance : Coordinate Rat where
  ofNat n := n
  less x y := x < y

section

variable {α : Type} [Coordinate α]

def half (x : α) : α := x / Coordinate.ofNat 2

/-- The larger of two numbers; the first one if neither is. -/
def larger (x y : α) : α := if Coordinate.less x y then y else x

/-- The largest number of a list, and zero for the empty one. -/
def largest : List α → α
  | [] => Coordinate.ofNat 0
  | x :: xs => xs.foldl larger x

/-- The sum of a list from left to right. -/
def total (xs : List α) : α := xs.foldl (· + ·) (Coordinate.ofNat 0)

end

end FlowDiagram.Layout
