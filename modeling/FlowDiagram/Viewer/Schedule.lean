import FlowDiagram.Viewer.Basic
/-!
# Taking turns

Requests that are made together take turns in the order in which they were made, until
all of them have come to an end.
-/

namespace FlowDiagram.Viewer

/-- A request and how far the work on it has come. -/
structure Task where
  request : Request
  stage : Stage

/-- The most turns that the work on a request still takes. -/
def Stage.turnsLeft : Stage → Nat
  | .waiting n => n + 3
  | .parsed _ _ => 2
  | .expanded _ _ => 1
  | .applied | .superseded | .failed _ => 0

/-- One turn for each task. -/
def round (setup : Setup) : Viewer → List Task → Viewer × List Task
  | v, [] => (v, [])
  | v, task :: rest =>
    let (v, stage) := v.advance setup task.request task.stage
    let (v, others) := round setup v rest
    (v, { task with stage } :: others)

/-- So many rounds. -/
def rounds (setup : Setup) : Nat → Viewer → List Task → Viewer × List Task
  | 0, v, tasks => (v, tasks)
  | n + 1, v, tasks =>
    let (v, tasks) := v.round setup tasks
    rounds setup n v tasks

/-- Work on requests that are made together, each with the turns that it waits first.
Returned are also the ends that they came to. -/
def serve (setup : Setup) (v : Viewer) (requests : List (Request × Nat)) : Viewer × List Stage :=
  let tasks := requests.map fun (request, turns) => ⟨request, .waiting turns⟩
  let turns := (tasks.map fun task => task.stage.turnsLeft).foldl max 0
  let (v, tasks) := v.rounds setup turns tasks
  (v, tasks.map Task.stage)

end FlowDiagram.Viewer
