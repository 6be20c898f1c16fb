import FlowDiagram.Diagram.Basic
/-!
# Diagrams as documents

The document of a diagram lists its nodes and edges with all that is needed to draw them.
-/

namespace FlowDiagram.Diagram

open Document Definition Layout

/-- A place. A node that was never put anywhere stands at zero. -/
def placeValue : Option (Point Float) → Value
  | some p => .record [("x", .float p.x), ("y", .float p.y)]
  | none => .record [("x", .int 0), ("y", .int 0)]

/-- A size, if there is one. -/
def sizeValue : Option (Extent Float) → Value
  | some e => .record [("width", .float e.width), ("height", .float e.height)]
  | none => .record []

/-- How the node is drawn where the flow starts. -/
def startStyle : Value :=
  .record [("background", .str "#e6f7ff"), ("borderColor", .str "#1890ff"),
    ("borderWidth", .str "2px")]

def edgeStyle : Value := .record [("strokeWidth", .int 2), ("stroke", .str "#333")]

def arrowTip : Value := .record [("type", .str "arrowclosed"), ("color", .str "#333")]

namespace Shape

/-- What only groups, or only other nodes, say about their looks. -/
def looks (shape : Shape) : Entries Value :=
  if shape.isGroup then [("style", sizeValue shape.size)]
  else [("targetPosition", .str "left"), ("sourcePosition", .str "right")] ++
    if shape.isStart then [("style", startStyle)] else []

/-- The group around a node. -/
def nesting (shape : Shape) : Entries Value :=
  match shape.parent with
  | some group => [("parentId", .str group), ("extent", .str "parent")]
  | none => []

def toValue (shape : Shape) : Value :=
  .record ([("id", .str shape.id), ("type", .str (if shape.isGroup then "group" else "custom")),
    ("position", placeValue shape.position), ("data", .record shape.data)] ++
    shape.nesting ++ shape.looks)

end Shape

/-- The document of an edge. An empty label is none. -/
def edgeValue (e : Graph.Edge) : Value :=
  .record ([("id", .str e.id), ("source", .str e.source), ("target", .str e.target),
    ("type", .str "smoothstep"), ("animated", .bool false), ("style", edgeStyle),
    ("markerEnd", arrowTip)] ++
    ((e.label.filter (!·.isEmpty)).map fun label => ("label", .str label)).toList)

def metadata (d : Diagram) : Value :=
  .record [("node_count", .int d.nodes.length), ("edge_count", .int d.edges.length),
    ("entry_id", .optional d.entry), ("exit_ids", .texts d.exits),
    ("layout_algorithm", .str d.algorithm.name)]

def toValue (d : Diagram) : Value :=
  .record [("nodes", .seq (d.nodes.map Shape.toValue)), ("edges", .seq (d.edges.map edgeValue)),
    ("metadata", d.metadata)]

end FlowDiagram.Diagram
