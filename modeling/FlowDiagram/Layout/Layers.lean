import FlowDiagram.Layout.Digraph
/-!
# Layers

Nodes of one rank form a layer. The order inside the layers is improved by sweeps: a
layer is sorted by the mean place of each node's neighbours in the layers already
visited, first from left to right and then back. Of all orders seen, including the
first, the one with the fewest crossings is kept, the earliest if there are several.
-/

namespace FlowDiagram.Layout

variable {ι : Type} [DecidableEq ι]

/-- Layers of nodes, from left to right, each from top to bottom. -/
abbrev Layers (ι : Type) := List (List ι)

namespace Layers

/-- The nodes of each rank in the order given. -/
def ofRanks (ranks : List (ι × Nat)) (order : List ι) : Layers ι :=
  let rank (v : ι) : Nat := (ranks.lookup v).getD 0
  (List.range ((ranks.map (·.2)).foldl max 0 + 1)).map fun r => order.filter (rank · = r)

/-- The last place of a node in a list. -/
def lastPlace? (v : ι) : List ι → Option Nat
  | [] => none
  | w :: ws =>
    match lastPlace? v ws with
    | some i => some (i + 1)
    | none => if w = v then some 0 else none

/-- The place of a node in its layer. -/
def place (layers : Layers ι) (v : ι) : Nat := (layers.findSome? (lastPlace? v)).getD 0

def total : List Nat → Nat
  | [] => 0
  | n :: ns => n + total ns

/-- A mean as a sum and a count. -/
structure Mean where
  sum : Nat
  count : Nat
  deriving DecidableEq, Repr

def Mean.atMost (a b : Mean) : Bool := a.sum * b.count ≤ b.sum * a.count

/-- The mean place of neighbours; a node without any stays where it is. -/
def barycentre (layers : Layers ι) (neighbours : List ι) (here : Nat) : Mean :=
  if neighbours.isEmpty then ⟨here, 1⟩
  else ⟨total (neighbours.map layers.place), neighbours.length⟩

/-- Insert an entry in front of the first one that is not before it. -/
def insertByMean (x : Mean × ι) : List (Mean × ι) → List (Mean × ι)
  | [] => [x]
  | y :: ys => if x.1.atMost y.1 then x :: y :: ys else y :: insertByMean x ys

/-- Sort by means; entries with equal means keep their order. -/
def sortByMean (xs : List (Mean × ι)) : List (Mean × ι) := xs.foldr insertByMean []

/-- The layer with its nodes in the order of their barycentres. -/
def sorted (layers : Layers ι) (neighbours : ι → List ι) (layer : List ι) : List ι :=
  (sortByMean (layer.zipIdx.map fun (v, i) =>
    (layers.barycentre (neighbours v) i, v))).map (·.2)

/-- Sort the layers with the given numbers one after the other. -/
def sweep (neighbours : ι → List ι) : List Nat → Layers ι → Layers ι
  | [], layers => layers
  | r :: rs, layers =>
    sweep neighbours rs (layers.modify r fun layer => layers.sorted neighbours layer)

/-- Two arcs between the same layers cross. -/
def crosses (a b : Nat × Nat) : Bool := (a.1 < b.1 && b.2 < a.2) || (b.1 < a.1 && a.2 < b.2)

/-- The number of crossing pairs of arcs. -/
def crossingPairs : List (Nat × Nat) → Nat
  | [] => 0
  | a :: rest => rest.countP (crosses a) + crossingPairs rest

/-- The arcs between a layer and the next one, by the places of their ends. -/
def arcsBetween (g : Digraph ι) (layers : Layers ι) (left right : List ι) : List (Nat × Nat) :=
  left.flatMap fun u =>
    ((g.successors u).filter (· ∈ right)).map fun v => (layers.place u, layers.place v)

/-- The number of crossings between adjacent layers. -/
def crossings (g : Digraph ι) (layers : Layers ι) : Nat :=
  total ((layers.zip layers.tail).map fun (left, right) =>
    crossingPairs (arcsBetween g layers left right))

/-- The order of the next sweep: even ones go right, odd ones go left. -/
def swept (g : Digraph ι) (round : Nat) (layers : Layers ι) : Layers ι :=
  let inner := List.range (layers.length - 1)
  if round % 2 = 0 then sweep g.predecessors (inner.map (· + 1)) layers
  else sweep g.successors inner.reverse layers

/-- Sweep a number of times, beginning with the given round, and keep the best order. No
sweep is made once there are no crossings. -/
def improve (g : Digraph ι) : (times round : Nat) → (layers best : Layers ι) → Layers ι
  | 0, _, _, best => best
  | n + 1, round, layers, best =>
    if best.crossings g = 0 then best
    else
      let layers := layers.swept g round
      improve g n (round + 1) layers
        (if layers.crossings g < best.crossings g then layers else best)

/-- The layers of a graph after four sweeps. -/
def ordered (g : Digraph ι) (ranks : List (ι × Nat)) (order : List ι) : Layers ι :=
  let first := ofRanks ranks order
  improve g 4 0 first first

end Layers

end FlowDiagram.Layout
