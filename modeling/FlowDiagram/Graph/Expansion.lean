import FlowDiagram.Graph.Basic
import FlowDiagram.Graph.Identifier
import FlowDiagram.Transition.Basic
/-!
# Expansion

A flow with scopes inside its nodes becomes one graph. A node that embeds a scope is a
group, followed by what its scope expands to. Around a scope each node is known by its
key and has one way in and one or more ways out: a plain node is its own way in and out,
and a group is entered where its scope starts and left where its scope ends.

A transition becomes one edge from each way out of its source to the way into its target.
The ways out of a scope are those of its nodes that no transition leaves.
-/

namespace FlowDiagram.Graph

open Definition Transition Json

/-- Where edges attach to a node. -/
structure Ports where
  entry : String
  exits : List String
  deriving DecidableEq, Repr

/-- What the nodes of a scope give: nodes and edges of the graph, and the ports of each
key. -/
structure Emitted where
  nodes : List Node := []
  edges : List Edge := []
  ports : Entries Ports := []

/-- The ends and the label of an edge. -/
structure Link where
  source : String
  target : String
  label : Option String
  deriving DecidableEq, Repr

def Link.edge (l : Link) : Edge := ⟨edgeName l.source l.target l.label, l.source, l.target, l.label⟩

/-- The ports of the two ends of a transition, unless it dangles. -/
def attached? (ports : Entries Ports) (t : Transition) : Option (Ports × Ports) :=
  match t.source.bind ports.get?, t.target.bind ports.get? with
  | some source, some target => some (source, target)
  | _, _ => none

/-- The links that a transition stands for. -/
def linksOf (ports : Entries Ports) (t : Transition) : List Link :=
  match attached? ports t with
  | some (source, target) => source.exits.map fun exit => ⟨exit, target.entry, t.action⟩
  | none => []

/-- The edges of a scope: the links of its transitions, each of them once. -/
def scopeEdges (ports : Entries Ports) (ts : List Transition) : List Edge :=
  (ts.flatMap (linksOf ports)).eraseDups.map Link.edge

/-- A transition leads from the node with a key to some node. -/
def leaves (ports : Entries Ports) (key : String) (t : Transition) : Bool :=
  t.source = some key && (attached? ports t).isSome

/-- The ways out of a scope. -/
def exitsOf (ports : Entries Ports) (ts : List Transition) : List String :=
  ports.flatMap fun (key, p) => if ts.any (leaves ports key) then [] else p.exits

/-- The way into a scope: the way into the node that its start names. -/
def entryOf (ports : Entries Ports) (start : Option String) : Option String :=
  ((nonEmpty start).bind ports.get?).map Ports.entry

/-- Edges with identifiers that differ. -/
def identified (edges : List Edge) : List Edge :=
  List.zipWith (fun e id => { e with id }) edges (claimAll [] (edges.map Edge.id))

/-- The graph of a scope whose nodes are emitted, with its transitions. -/
def connect (emitted : Emitted) (start : Option String) (ts : List Transition) : Graph where
  nodes := emitted.nodes
  edges := identified (emitted.edges ++ scopeEdges emitted.ports ts)
  entry := entryOf emitted.ports start
  exits := exitsOf emitted.ports ts

/-- A node without a scope in it. -/
def plainNode (parent : Option String) (id key : String) (spec : NodeSpec) : Emitted where
  nodes := [{ id, parent, label := key, spec }]
  ports := [(key, ⟨id, [id]⟩)]

/-- A group with the graph of its scope. Where the scope has no way in or out, the group
itself is taken. An empty name is no way in. -/
def group (parent : Option String) (id key : String) (spec : NodeSpec) (inner : Graph) : Emitted where
  nodes := { id, isGroup := true, parent, label := "Subflow: " ++ key, spec } :: inner.nodes
  edges := inner.edges
  ports := [(key, ⟨(nonEmpty inner.entry).getD id, if inner.exits.isEmpty then [id] else inner.exits⟩)]

def Emitted.append (a b : Emitted) : Emitted :=
  ⟨a.nodes ++ b.nodes, a.edges ++ b.edges, a.ports ++ b.ports⟩

/-- The graph of a scope, and the identifiers that are taken after it. -/
abbrev Expanded := Graph × List String

mutual

/-- Expand a scope inside a group, given the identifiers that are taken. -/
def expand (within : String) (parent : Option String) (taken : List String) :
    Flow → Except Unwritable Expanded
  | ⟨start, nodes, edges, others⟩ => do
    let (emitted, taken) ← emitField within parent taken nodes
    let ts ← ofScope ⟨start, nodes, edges, others⟩
    .ok (connect emitted start.value? ts, taken)
termination_by structural flow => flow

/-- Emit the nodes of a scope, if it has any. -/
def emitField (within : String) (parent : Option String) (taken : List String) :
    Slot (List (String × NodeSpec)) → Except Unwritable (Emitted × List String)
  | .given specs => emit within parent taken specs
  | .absent | .dropped => .ok ({}, taken)
termination_by structural f => f

def emit (within : String) (parent : Option String) (taken : List String) :
    List (String × NodeSpec) → Except Unwritable (Emitted × List String)
  | [] => .ok ({}, taken)
  | (key, spec) :: rest => do
    let id := claim taken (qualify within key)
    let taken := id :: taken
    match ← expandInside id taken spec with
    | some (inner, taken) =>
      let (others, taken) ← emit within parent taken rest
      .ok ((group parent id key spec inner).append others, taken)
    | none =>
      let (others, taken) ← emit within parent taken rest
      .ok ((plainNode parent id key spec).append others, taken)
termination_by structural specs => specs

/-- Expand the scope that a node embeds. -/
def expandInside (id : String) (taken : List String) :
    NodeSpec → Except Unwritable (Option Expanded)
  | ⟨post, cases, defaultAction, subflow, others⟩ =>
    if (NodeSpec.mk post cases defaultAction subflow others).kind = .subflow then
      expandBody id taken subflow
    else .ok none
termination_by structural spec => spec

def expandBody (id : String) (taken : List String) :
    Slot (Scope NodeSpec) → Except Unwritable (Option Expanded)
  | .given scope => (expand id (some id) taken scope).map some
  | .absent | .dropped => .ok none
termination_by structural f => f

end

/-- Mark the first node with an identifier as the start. -/
def markStart (id : String) : List Node → List Node
  | [] => []
  | node :: rest =>
    if node.id = id then { node with isStart := true } :: rest else node :: markStart id rest

def ofFlow (flow : Flow) : Except Unwritable Graph := do
  let (g, _) ← expand "" none [] flow
  match nonEmpty g.entry with
  | some id => .ok { g with nodes := markStart id g.nodes }
  | none => .ok g

/-- A node that keeps nothing of the scope that it embeds. -/
def collapsed (spec : NodeSpec) : NodeSpec :=
  if spec.embedded?.isSome then { spec with subflow := .dropped } else spec

/-- A flow whose nodes embed no scopes. -/
def collapsedFlow (flow : Flow) : Flow :=
  match flow.nodes with
  | .given specs => { flow with nodes := .given (specs.map fun (key, spec) => (key, collapsed spec)) }
  | .absent | .dropped => flow

/-- The graph of the outermost scope alone. Each node still holds all that is known about
it. -/
def ofFlowFlat (flow : Flow) : Except Unwritable Graph := do
  let g ← ofFlow (collapsedFlow flow)
  let whole (node : Node) : Node := { node with spec := (flow.entries.get? node.id).getD node.spec }
  .ok { g with nodes := g.nodes.map whole }

end FlowDiagram.Graph
