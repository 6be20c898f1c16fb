import FlowDiagram.Diagram.Basic
/-!
# Viewers

A viewer shows the picture of one source at a time. Making a picture takes three turns,
between which requests for other sources may have theirs: reading the source, expanding
the flow, and arranging the graph. The passes through these turns are numbered in the
order in which they begin, and a picture is shown only if no later pass has begun.
-/

namespace FlowDiagram

open Document Definition Layout

namespace Viewer

/-- What is on display. -/
structure Picture where
  nodes : List Diagram.Shape := []
  edges : List Graph.Edge := []

end Viewer

/-- A viewer with the number of passes that have begun. -/
structure Viewer where
  picture : Viewer.Picture := {}
  passes : Nat := 0

namespace Viewer

/-- How a viewer arranges what it shows. -/
structure Setup where
  spacing : Spacing Float
  layout : String

/-- A request to show a source. Text and language may be any values. -/
structure Request where
  text : Value
  language : Value := .null

/-- How far the work on a request has come. -/
inductive Stage where
  /-- The pass has not begun, and lets others have so many turns first. -/
  | waiting (turns : Nat)
  /-- The source is read. -/
  | parsed (pass : Nat) (flow : Flow)
  /-- The flow is expanded. -/
  | expanded (pass : Nat) (graph : Graph)
  /-- The picture is shown. -/
  | applied
  /-- A later pass has begun, and the picture is not shown. -/
  | superseded
  | failed (fault : Diagram.Fault)

/-- The work on the request has come to its end. -/
def Stage.isEnd : Stage → Bool
  | .waiting _ | .parsed _ _ | .expanded _ _ => false
  | .applied | .superseded | .failed _ => true

/-- Show the picture of a pass, unless a later pass has begun. -/
def finish (v : Viewer) (pass : Nat) (picture : Picture) : Viewer × Stage :=
  if pass = v.passes then ({ v with picture }, .applied) else (v, .superseded)

/-- The first turn of a pass. A source without anything in it clears the display at once. -/
def start (v : Viewer) (r : Request) : Viewer × Stage :=
  let v := { v with passes := v.passes + 1 }
  if !r.text.truthy then v.finish v.passes {}
  else
    match Flow.ofSource r.text r.language with
    | .ok flow => (v, .parsed v.passes flow)
    | .error fault => (v, .failed (.source fault))

/-- One turn of the work on a request. -/
def advance (setup : Setup) (v : Viewer) (r : Request) : Stage → Viewer × Stage
  | .waiting (n + 1) => (v, .waiting n)
  | .waiting 0 => v.start r
  | .parsed pass flow =>
    match Graph.ofFlow flow with
    | .ok graph => (v, .expanded pass graph)
    | .error fault => (v, .failed (.label fault))
  | .expanded pass graph =>
    match Diagram.ofGraph setup.spacing setup.layout graph with
    | .ok d => v.finish pass ⟨d.nodes, d.edges⟩
    | .error fault => (v, .failed fault)
  | .applied => (v, .applied)
  | .superseded => (v, .superseded)
  | .failed fault => (v, .failed fault)

end Viewer

end FlowDiagram
