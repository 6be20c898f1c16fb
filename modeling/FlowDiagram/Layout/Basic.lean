import FlowDiagram.Layout.Frame
/-!
# Layout

Nodes with parents and edges become rectangles in the plane. Nothing but the identity of
the identifiers is looked at. The place of a nested node is given relative to the upper
left corner of the node it is nested in.
-/

namespace FlowDiagram.Layout

/-- The rectangle of a node, by its upper left corner in the plane. -/
structure Spot (ι α : Type) where
  id : ι
  corner : Point α
  extent : Extent α

/-- The rectangle of a node, by its upper left corner relative to that of its parent. -/
structure Placement (α : Type) where
  corner : Point α
  extent : Extent α

variable {ι α : Type} [DecidableEq ι] [Coordinate α]

mutual

/-- The rectangles of a frame and of all frames inside it. -/
def Frame.spots (origin centre : Point α) : Frame ι α → List (Spot ι α)
  | .mk id extent inner =>
    let corner : Point α :=
      ⟨origin.x + centre.x - half extent.width, origin.y + centre.y - half extent.height⟩
    ⟨id, corner, extent⟩ :: spotsInside corner inner
termination_by structural f => f

/-- The rectangles of frames that are given by their centres. -/
def spotsInside (origin : Point α) : List (Point α × Frame ι α) → List (Spot ι α)
  | [] => []
  | (centre, f) :: rest => f.spots origin centre ++ spotsInside origin rest
termination_by structural fs => fs

end

def spots (s : Spacing α) (items : List (Item ι)) (edges : List (ι × ι)) : List (Spot ι α) :=
  let parents := Parents.kept items
  let arcs := parents.liftedArcs edges
  spotsInside .origin (outermost s arcs (measureAll s arcs (Box.forest items parents)))

def spotOf (spots : List (Spot ι α)) (id : ι) : Spot ι α :=
  (spots.find? (·.id = id)).getD ⟨id, .origin, .zero⟩

/-- A place seen from another one. -/
def Point.from (p q : Point α) : Point α := ⟨p.x - q.x, p.y - q.y⟩

/-- The placement of a node among the rectangles of all. -/
def placement (parents : Parents ι) (spots : List (Spot ι α)) (id : ι) : Placement α :=
  let spot := spotOf spots id
  match parents.lookup id with
  | none => ⟨spot.corner, spot.extent⟩
  | some parent => ⟨spot.corner.from (spotOf spots parent).corner, spot.extent⟩

def placements (s : Spacing α) (items : List (Item ι)) (edges : List (ι × ι)) :
    List (Placement α) :=
  let all := spots s items edges
  items.map fun item => placement (Parents.kept items) all item.id

end FlowDiagram.Layout
