import FlowDiagram.Layout.Coordinate
/-!
# Columns

Layers become columns from left to right. A column is as wide as its widest box; its
boxes are stacked with a fixed distance, and the stack is centred on the height of the
tallest column.
-/

namespace FlowDiagram.Layout

/-- Distances and sizes of a layout. -/
structure Spacing (α : Type) where
  rankSeparation : α
  nodeSeparation : α
  nodeWidth : α
  nodeHeight : α
  paddingLeft : α
  paddingRight : α
  paddingTop : α
  paddingBottom : α

structure Extent (α : Type) where
  width : α
  height : α

structure Point (α : Type) where
  x : α
  y : α

/-- Placed boxes by their centres, with the extent that they fill. A later centre of the
same box counts. -/
structure Arrangement (ι α : Type) where
  extent : Extent α
  centres : List (ι × Point α)

section

variable {ι α : Type} [DecidableEq ι] [Coordinate α]

/-- The height of a stack of boxes with a distance between them. -/
def stackHeight (separation : α) (heights : List α) : α :=
  total heights + separation * Coordinate.ofNat (heights.length - 1)

/-- Stack boxes around a vertical line, from a height down. -/
def stack (separation middle : α) (extent : ι → Extent α) : α → List ι → List (ι × Point α)
  | _, [] => []
  | top, v :: vs =>
    let height := (extent v).height
    (v, ⟨middle, top + half height⟩) ::
      stack separation middle extent (top + (height + separation)) vs

/-- Place columns from a left edge on. Returned is also the edge behind the last one. -/
def columns (s : Spacing α) (extent : ι → Extent α) (tallest : α) :
    α → List (List ι) → α × List (ι × Point α)
  | left, [] => (left, [])
  | left, layer :: rest =>
    if layer.isEmpty then columns s extent tallest left rest
    else
      let width := largest (layer.map fun v => (extent v).width)
      let height := stackHeight s.nodeSeparation (layer.map fun v => (extent v).height)
      let here := stack s.nodeSeparation (left + half width) extent (half (tallest - height)) layer
      let (right, others) := columns s extent tallest (left + (width + s.rankSeparation)) rest
      (right, here ++ others)

/-- Place layers as columns. -/
def arrange (s : Spacing α) (extent : ι → Extent α) (layers : List (List ι)) : Arrangement ι α :=
  let heights := layers.map fun layer =>
    stackHeight s.nodeSeparation (layer.map fun v => (extent v).height)
  let tallest := largest heights
  let (right, centres) := columns s extent tallest (Coordinate.ofNat 0) layers
  ⟨⟨larger (right - s.rankSeparation) (Coordinate.ofNat 0), tallest⟩, centres⟩

end

end FlowDiagram.Layout
