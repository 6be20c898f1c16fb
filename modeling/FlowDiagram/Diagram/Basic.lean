import FlowDiagram.Diagram.Details
import FlowDiagram.Graph.Expansion
/-!
# Diagrams

A diagram is a graph made ready for drawing. Every node shows the fields of its document,
its label, its kind and its details. The hierarchical layout puts all nodes in their
places; the manual one leaves them where they are.
-/

namespace FlowDiagram

open Document Definition Layout

namespace Diagram

/-- How nodes come to their places. -/
inductive Algorithm where
  | hierarchical
  | manual
  deriving DecidableEq, Repr

namespace Algorithm

def name : Algorithm → String
  | .hierarchical => "hierarchical"
  | .manual => "manual"

def ofName? (name : String) : Option Algorithm :=
  [hierarchical, manual].find? fun a => a.name == name

end Algorithm

/-- A node as it is drawn. A node inside a group names it and stays within its borders. -/
structure Shape where
  id : String
  isGroup : Bool
  position : Option (Point Float)
  data : Entries Value
  parent : Option String
  isStart : Bool
  size : Option (Extent Float)

end Diagram

/-- A graph as it is drawn. -/
structure Diagram where
  nodes : List Diagram.Shape := []
  edges : List Graph.Edge := []
  entry : Option String := none
  exits : List String := []
  algorithm : Diagram.Algorithm := .hierarchical

namespace Diagram

/-- Everything that a node shows. -/
def shownData (node : Graph.Node) : Except Fault (Entries Value) := do
  let fields ← node.spec.payload.mapError .field
  let details ← details node.spec
  .ok (Entries.ofList (fields ++ [("label", .str node.label), ("nodeKind", .str node.spec.kind.name),
    ("isStart", .bool node.isStart), ("details", .record details)]))

/-- A node made ready for drawing. -/
def Shape.ofNode (node : Graph.Node) : Except Fault Shape := do
  let data ← shownData node
  .ok { id := node.id, isGroup := node.isGroup, position := node.position, data,
        parent := node.parent?, isStart := node.isStart, size := node.size }

/-- The nodes of a graph, each of which may have no text to show. -/
def shapes : List Graph.Node → Except Fault (List Shape)
  | [] => .ok []
  | node :: rest => do
    let shape ← Shape.ofNode node
    let others ← shapes rest
    .ok (shape :: others)

/-- A graph whose nodes are put into their places. -/
def arranged (s : Spacing Float) (g : Graph) : Algorithm → Graph
  | .hierarchical => g.laidOut s
  | .manual => g

/-- The layout with a name. -/
def chosenAlgorithm (layout : String) : Except Fault Algorithm :=
  match Algorithm.ofName? layout with
  | some algorithm => .ok algorithm
  | none => .error (.layout layout)

def ofGraph (s : Spacing Float) (layout : String) (g : Graph) : Except Fault Diagram := do
  let algorithm ← chosenAlgorithm layout
  let nodes ← shapes (arranged s g algorithm).nodes
  .ok { nodes, edges := g.edges, entry := g.entry, exits := g.exits, algorithm }

/-- The diagram of a flow, with the scopes inside its nodes or without. -/
def ofFlow (s : Spacing Float) (layout : String) (expanded : Bool) (flow : Flow) :
    Except Fault Diagram := do
  let g ← (if expanded then Graph.ofFlow flow else Graph.ofFlowFlat flow).mapError .label
  ofGraph s layout g

/-- The diagram of a source, whose text and language may be any values. -/
def ofSource (s : Spacing Float) (layout : String) (expanded : Bool) (text language : Value) :
    Except Fault Diagram := do
  let flow ← (Flow.ofSource text language).mapError .source
  ofFlow s layout expanded flow

end Diagram

end FlowDiagram
