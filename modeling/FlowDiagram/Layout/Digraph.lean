/-!
# Directed graphs

Nodes and arcs are kept in the order in which they were first given. Cycles are broken
one arc at a time: a depth-first search from each node in turn stops at the first arc
that leads back to a node on its current path, and that arc is removed.

In a graph without cycles the depth of a node is the length of the longest path that
ends in it. Ranks are depths, except that a node which only begins paths moves next to
its nearest successor.
-/

namespace FlowDiagram.Layout

/-- A directed graph over the identifiers `ι`. -/
structure Digraph (ι : Type) where
  nodes : List ι
  arcs : List (ι × ι)
  deriving DecidableEq, Repr

namespace Digraph

variable {ι : Type} [DecidableEq ι]

/-- The graph of the given nodes and arcs; repetitions change nothing. -/
def ofLists (nodes : List ι) (arcs : List (ι × ι)) : Digraph ι := ⟨nodes.eraseDups, arcs.eraseDups⟩

def successors (g : Digraph ι) (v : ι) : List ι := (g.arcs.filter (·.1 = v)).map (·.2)

def predecessors (g : Digraph ι) (v : ι) : List ι := (g.arcs.filter (·.2 = v)).map (·.1)

def erase (g : Digraph ι) (a : ι × ι) : Digraph ι := { g with arcs := g.arcs.erase a }

/-- Search from the last node of a path. Returned is the first arc that closes a cycle,
or the nodes that are finished. The number bounds the length of the path. -/
def explore (g : Digraph ι) : Nat → List ι → List ι → ι → Except (ι × ι) (List ι)
  | 0, _, done, _ => .ok done
  | n + 1, path, done, u => do
    let done ← (g.successors u).foldlM (fun done v =>
      if v ∈ path then .error (u, v)
      else if v ∈ done then .ok done
      else explore g n (v :: path) done v) done
    .ok (u :: done)

/-- The first arc that closes a cycle. -/
def closingArc? (g : Digraph ι) : Option (ι × ι) :=
  let search := g.nodes.foldlM (fun done u =>
    if u ∈ done then .ok done else g.explore (g.nodes.length + 1) [u] done u) ([] : List ι)
  match search with
  | .error a => some a
  | .ok _ => none

/-- Remove closing arcs until there is none, or at most as many as the number says. -/
def breakCycles : Nat → Digraph ι → Digraph ι
  | 0, g => g
  | n + 1, g =>
    match g.closingArc? with
    | none => g
    | some a => breakCycles n (g.erase a)

def acyclic (g : Digraph ι) : Digraph ι := breakCycles g.arcs.length g

/-- Strip the nodes that nothing left enters, layer by layer, and number the layers. -/
def peel (g : Digraph ι) : Nat → Nat → List ι → List (ι × Nat)
  | 0, _, _ => []
  | n + 1, k, rest =>
    let free := rest.filter fun v => (g.predecessors v).all (· ∉ rest)
    free.map (·, k) ++ peel g n (k + 1) (rest.filter (· ∉ free))

def depths (g : Digraph ι) : List (ι × Nat) := g.peel g.nodes.length 0 g.nodes

def least : List Nat → Nat
  | [] => 0
  | n :: ns => ns.foldl min n

def ranks (g : Digraph ι) : List (ι × Nat) :=
  let depths := g.depths
  let depth (v : ι) : Nat := (depths.lookup v).getD 0
  g.nodes.map fun v =>
    let successors := g.successors v
    if (g.predecessors v).isEmpty && !successors.isEmpty then (v, least (successors.map depth) - 1)
    else (v, depth v)

end Digraph

end FlowDiagram.Layout
