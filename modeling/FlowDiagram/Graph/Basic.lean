import FlowDiagram.Definition.Basic
import FlowDiagram.Layout.Basic
/-!
# Graphs

A graph holds the nodes of a flow and of all scopes inside it in one list. A node with
nodes nested in it is a group; the nested ones name it as their parent. Edges join nodes
across all scopes.
-/

namespace FlowDiagram

open Definition Layout

namespace Graph

/-- A node of a graph. It has no position until it is put somewhere, and no size until it
is measured. -/
structure Node where
  id : String
  isGroup : Bool := false
  parent : Option String := none
  label : String
  spec : NodeSpec := {}
  isStart : Bool := false
  position : Option (Point Float) := none
  size : Option (Extent Float) := none

structure Edge where
  id : String
  source : String
  target : String
  label : Option String := none
  deriving DecidableEq, Repr

end Graph

/-- A graph with the node where it is entered and the nodes where it is left. -/
structure Graph where
  nodes : List Graph.Node := []
  edges : List Graph.Edge := []
  entry : Option String := none
  exits : List String := []

namespace Graph

/-- The parent of a node as far as it names one. The empty name is none. -/
def Node.parent? (node : Node) : Option String := node.parent.filter (!·.isEmpty)

/-- A node as the layout sees it. -/
def Node.item (node : Node) : Item String := ⟨node.id, node.parent?⟩

def ids (g : Graph) : List String := g.nodes.map Node.id

def node? (g : Graph) (id : String) : Option Node := g.nodes.find? (·.id == id)

def items (g : Graph) : List (Item String) := g.nodes.map Node.item

theorem ids_items (g : Graph) : g.items.map (·.id) = g.ids := List.map_map

def arcs (g : Graph) : List (String × String) := g.edges.map fun e => (e.source, e.target)

/-- A node at the place that a layout gives it. Only groups are given a size. -/
def put (node : Node) (p : Placement Float) : Node :=
  { node with
    position := some p.corner
    size := if node.isGroup then some p.extent else node.size }

/-- The graph with all nodes in the places that a layout gives them. -/
def laidOut (s : Spacing Float) (g : Graph) : Graph :=
  { g with nodes := List.zipWith put g.nodes (placements s g.items g.arcs) }

end Graph

end FlowDiagram
