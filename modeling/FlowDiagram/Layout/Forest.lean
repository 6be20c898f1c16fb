/-!
# Nesting

Nodes name the node they are nested in. A parent that is missing or the node itself does
not count, and of a loop of parents as much is given up as is needed to end it: the
nodes are looked at in order, and a node whose chain of parents does not end loses its
parent.

What remains is a forest of boxes. A node that occurs several times is a box at each of
its occurrences, and all of them hold the same boxes.
-/

namespace FlowDiagram.Layout

/-- A node with the parent that it names. -/
structure Item (ι : Type) where
  id : ι
  parent : Option ι
  deriving DecidableEq, Repr

/-- A node with the nodes nested in it. -/
inductive Box (ι : Type) where
  | mk (id : ι) (inner : List (Box ι))

/-- The parents of nodes, in the order in which the nodes first named one. -/
abbrev Parents (ι : Type) := List (ι × ι)

namespace Parents

variable {ι : Type} [DecidableEq ι]

/-- Name a parent; naming one again replaces the first. -/
def name (id parent : ι) : Parents ι → Parents ι
  | [] => [(id, parent)]
  | (i, p) :: rest => if i = id then (i, parent) :: rest else (i, p) :: name id parent rest

/-- The parents that can count: other nodes of the same list. -/
def declared (items : List (Item ι)) : Parents ι :=
  items.foldl (fun parents item =>
    match item.parent with
    | some p =>
      if p ∈ items.map (·.id) ∧ p ≠ item.id then name item.id p parents else parents
    | none => parents) []

/-- The chain of parents ends within a number of steps. -/
def ends (parents : Parents ι) : Nat → ι → Bool
  | 0, _ => false
  | n + 1, id =>
    match parents.lookup id with
    | none => true
    | some p => ends parents n p

/-- The chain of parents runs into a loop. -/
def loops (parents : Parents ι) (id : ι) : Bool := !parents.ends (parents.length + 1) id

def forget (parents : Parents ι) (id : ι) : Parents ι := parents.filter (·.1 ≠ id)

/-- The parents that are kept, so that no chain loops. -/
def kept (items : List (Item ι)) : Parents ι :=
  let all := declared items
  (all.map (·.1)).foldl (fun parents id => if parents.loops id then parents.forget id else parents)
    all

/-- The first of a node and its ancestors that belongs to a list. -/
def lift (parents : Parents ι) (members : List ι) : Nat → ι → Option ι
  | 0, _ => none
  | n + 1, id =>
    if id ∈ members then some id
    else
      match parents.lookup id with
      | none => none
      | some p => lift parents members n p

end Parents

namespace Box

variable {ι : Type} [DecidableEq ι]

def id : Box ι → ι
  | .mk id _ => id

def inner : Box ι → List (Box ι)
  | .mk _ inner => inner

/-- The nodes with a given parent, in order. -/
def childrenOf (items : List (Item ι)) (parents : Parents ι) (parent : Option ι) : List ι :=
  (items.map (·.id)).filter fun id => parents.lookup id = parent

/-- The box of a node. The number bounds the depth of nesting. -/
def grow (items : List (Item ι)) (parents : Parents ι) : Nat → ι → Box ι
  | 0, id => .mk id []
  | n + 1, id => .mk id ((childrenOf items parents (some id)).map (grow items parents n))

/-- The boxes that are nested in no other. -/
def forest (items : List (Item ι)) (parents : Parents ι) : List (Box ι) :=
  (childrenOf items parents none).map (grow items parents items.length)

end Box

end FlowDiagram.Layout
