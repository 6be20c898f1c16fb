import FlowDiagram.Document.Value
import FlowDiagram.Layout.Columns
import FlowDiagram.Number.Reading
/-!
# Settings

The distances and sizes of a layout have customary values, whole numbers, each of which
can be replaced. Separations must not be negative, and nodes must have a positive width
and height. Paddings may be anything.
-/

namespace FlowDiagram

open Document Layout

namespace Settings

/-- The measures that can be set, in the order in which they are declared. -/
inductive Key where
  | rankSeparation
  | nodeSeparation
  | nodeWidth
  | nodeHeight
  | paddingLeft
  | paddingRight
  | paddingTop
  | paddingBottom
  deriving DecidableEq, Repr

/-- Which numbers a measure may be. -/
inductive Bound where
  | nonNegative
  | positive
  | free
  deriving DecidableEq, Repr

/-- A number keeps a bound. The undefined one keeps none. -/
def Bound.admits : Bound → Float → Bool
  | .nonNegative, x => 0.0 ≤ x
  | .positive, x => 0.0 < x
  | .free, _ => true

namespace Key

def all : List Key :=
  [rankSeparation, nodeSeparation, nodeWidth, nodeHeight, paddingLeft, paddingRight, paddingTop,
    paddingBottom]

def name : Key → String
  | .rankSeparation => "rank_separation"
  | .nodeSeparation => "node_separation"
  | .nodeWidth => "node_width"
  | .nodeHeight => "node_height"
  | .paddingLeft => "padding_left"
  | .paddingRight => "padding_right"
  | .paddingTop => "padding_top"
  | .paddingBottom => "padding_bottom"

/-- The variable of the environment that sets a measure. Paddings have none. -/
def setBy? : Key → Option String
  | .rankSeparation => some "FLOW_LAYOUT_RANKSEP"
  | .nodeSeparation => some "FLOW_LAYOUT_NODESEP"
  | .nodeWidth => some "FLOW_NODE_WIDTH"
  | .nodeHeight => some "FLOW_NODE_HEIGHT"
  | .paddingLeft | .paddingRight | .paddingTop | .paddingBottom => none

/-- The customary value of a measure. -/
def customary : Key → Nat
  | .rankSeparation | .nodeSeparation => 60
  | .nodeWidth => 220
  | .nodeHeight => 100
  | .paddingLeft | .paddingRight | .paddingBottom => 20
  | .paddingTop => 30

def bound : Key → Bound
  | .rankSeparation | .nodeSeparation => .nonNegative
  | .nodeWidth | .nodeHeight => .positive
  | .paddingLeft | .paddingRight | .paddingTop | .paddingBottom => .free

end Key

/-- The value of a measure: the customary number, or one that was given. -/
inductive Measure where
  | customary (n : Nat)
  | given (x : Float)

def Measure.number : Measure → Float
  | .customary n => Float.ofNat n
  | .given x => x

end Settings

abbrev Settings := Settings.Key → Settings.Measure

namespace Settings

def customary : Settings := fun key => .customary key.customary

/-- The measures that were refused, in the order of their declaration. -/
abbrev Refused := List Key

/-- Settings in which some measures are replaced. All that break their bounds are named. -/
def replaced (numbers : Key → Option Float) : Except Refused Settings :=
  let breaks (key : Key) : Bool :=
    match numbers key with
    | some x => !key.bound.admits x
    | none => false
  let broken := Key.all.filter breaks
  if broken.isEmpty then
    .ok fun key => ((numbers key).map Measure.given).getD (.customary key.customary)
  else .error broken

/-- The distances of the layout. -/
def spacing (s : Settings) : Spacing Float where
  rankSeparation := (s .rankSeparation).number
  nodeSeparation := (s .nodeSeparation).number
  nodeWidth := (s .nodeWidth).number
  nodeHeight := (s .nodeHeight).number
  paddingLeft := (s .paddingLeft).number
  paddingRight := (s .paddingRight).number
  paddingTop := (s .paddingTop).number
  paddingBottom := (s .paddingBottom).number

end Settings

end FlowDiagram
