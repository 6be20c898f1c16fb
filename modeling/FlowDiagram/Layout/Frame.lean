import FlowDiagram.Layout.Columns
import FlowDiagram.Layout.Forest
import FlowDiagram.Layout.Layers
/-!
# Frames

Boxes are measured from the inside out. A box without boxes in it has the size of a
node; any other one is as large as the arrangement of the boxes in it, with a padding on
each side.

The boxes of a container are ranked by the edges between them. An edge from or to a box
further inside counts for the box of the container that holds it.
-/

namespace FlowDiagram.Layout

/-- A measured box. The boxes in it are given with their centres, seen from its upper
left corner. -/
inductive Frame (ι α : Type) where
  | mk (id : ι) (extent : Extent α) (inner : List (Point α × Frame ι α))

namespace Frame

variable {ι α : Type}

def id : Frame ι α → ι
  | .mk id _ _ => id

def extent : Frame ι α → Extent α
  | .mk _ extent _ => extent

/-- The frames directly inside a frame, by their centres. -/
def inner : Frame ι α → List (Point α × Frame ι α)
  | .mk _ _ inner => inner

end Frame

variable {ι α : Type} [DecidableEq ι] [Coordinate α]

/-- The edges between the members of a container, each end lifted to the member that
holds it. -/
def Parents.liftedArcs (parents : Parents ι) (edges : List (ι × ι)) (members : List ι) :
    List (ι × ι) :=
  let member? := parents.lift members (parents.length + 1)
  edges.filterMap fun (source, target) =>
    match member? source, member? target with
    | some u, some v => if u = v then none else some (u, v)
    | _, _ => none

def Extent.zero : Extent α := ⟨Coordinate.ofNat 0, Coordinate.ofNat 0⟩

def Point.origin : Point α := ⟨Coordinate.ofNat 0, Coordinate.ofNat 0⟩

/-- The size of the box with an identifier. -/
def extentIn (frames : List (Frame ι α)) (id : ι) : Extent α :=
  ((frames.find? (·.id = id)).map Frame.extent).getD .zero

/-- The arrangement of measured boxes with arcs between them. -/
def content (s : Spacing α) (arcs : List (ι × ι)) (frames : List (Frame ι α)) :
    Arrangement ι α :=
  let ids := frames.map Frame.id
  let g := (Digraph.ofLists ids arcs).acyclic
  arrange s (extentIn frames) (Layers.ordered g g.ranks ids)

/-- The place of the centre of a box. -/
def Arrangement.centre (a : Arrangement ι α) (id : ι) : Point α :=
  (a.centres.reverse.lookup id).getD .origin

/-- A point behind the left and upper padding, as often as it is asked for. -/
def inset (s : Spacing α) : Nat → Point α → Point α
  | 0, p => p
  | n + 1, p => inset s n ⟨p.x + s.paddingLeft, p.y + s.paddingTop⟩

/-- The frame around measured boxes. A box that occurs several times moves by the padding
once for each occurrence. -/
def enclose (s : Spacing α) (arcs : List ι → List (ι × ι)) (id : ι) (frames : List (Frame ι α)) :
    Frame ι α :=
  if frames.isEmpty then .mk id ⟨s.nodeWidth, s.nodeHeight⟩ []
  else
    let ids := frames.map Frame.id
    let a := content s (arcs ids) frames
    let width := a.extent.width + s.paddingLeft + s.paddingRight
    let height := a.extent.height + s.paddingTop + s.paddingBottom
    .mk id ⟨width, height⟩ (frames.map fun f => (inset s (ids.count f.id) (a.centre f.id), f))

mutual

/-- The frame of a box. -/
def measure (s : Spacing α) (arcs : List ι → List (ι × ι)) : Box ι → Frame ι α
  | .mk id inner => enclose s arcs id (measureAll s arcs inner)
termination_by structural b => b

def measureAll (s : Spacing α) (arcs : List ι → List (ι × ι)) : List (Box ι) → List (Frame ι α)
  | [] => []
  | b :: rest => measure s arcs b :: measureAll s arcs rest
termination_by structural bs => bs

end

/-- The outermost boxes by their centres. Nothing is around them, so they have no padding. -/
def outermost (s : Spacing α) (arcs : List ι → List (ι × ι)) (frames : List (Frame ι α)) :
    List (Point α × Frame ι α) :=
  let a := content s (arcs (frames.map Frame.id)) frames
  frames.map fun f => (a.centre f.id, f)

end FlowDiagram.Layout
