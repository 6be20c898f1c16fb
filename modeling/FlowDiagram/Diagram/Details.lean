import FlowDiagram.Diagram.Fault
import FlowDiagram.Transition.Basic
/-!
# Details of nodes

Each kind of node shows details of its own. Approvals and nodes of other kinds show none.
-/

namespace FlowDiagram.Diagram

open Document Definition Transition

/-- A field of a mapping, null if it is missing. -/
def fieldOf (name : String) (v : Value) : Value := (v.get? name).getD .null

/-- The service that fields name: `service`, or else the type of an execution with the
function, if any, that it calls. -/
def serviceLabel (fields : Value) : Value :=
  let service := fieldOf "service" fields
  let type := fieldOf "exec_type" fields
  let function := fieldOf "func" fields
  if service.truthy then service
  else if !type.truthy then .null
  else if function.truthy then .str (type.display ++ ":" ++ function.display)
  else type

def mappings (v : Value) : List Value := v.items.filter Value.isMap

/-- Details of a node that calls a service. -/
def executorDetails (spec : NodeSpec) : Except Fault (Entries Value) := do
  let shown ← spec.payload.mapError .field
  .ok [("service", serviceLabel (.record shown))]

/-- Details of a choice: the labels and targets of all its cases. -/
def choiceDetails (spec : NodeSpec) : Except Fault (Entries Value) := do
  let cases ← (caseLabels spec).mapError .label
  let shown (c : CaseLabel) : Value :=
    .record [("label", .str c.label), ("target", .optional c.target)]
  .ok [("cases", .seq (cases.map shown)),
    ("default_action", .optional spec.defaultAction.value?)]

/-- Details of a node that runs several services at once. -/
def parallelDetails (spec : NodeSpec) : Entries Value :=
  let exec (v : Value) : Value :=
    .record [("service", serviceLabel v), ("params", fieldOf "params" v)]
  [("parallel_mode", spec.field "parallel_mode"), ("max_parallel", spec.field "max_parallel"),
    ("services", .seq (spec.field "parallel_services").items),
    ("execs", .seq ((mappings (spec.field "parallel_execs")).map exec))]

/-- Details of an iteration. -/
def foreachDetails (spec : NodeSpec) : Entries Value :=
  let override (v : Value) : Value :=
    .record [("index", fieldOf "index" v), ("params", fieldOf "params" v)]
  [("parallel_mode", spec.field "parallel_mode"),
    ("overrides", .seq ((mappings (spec.field "foreach_execs")).map override))]

/-- Details of a node that stands for another flow. -/
def subflowDetails (spec : NodeSpec) : Entries Value :=
  let count := ((spec.subflow.value?.map Scope.entries).getD []).length
  [("flow_id", spec.field "flow_id"), ("child_count", .int count)]

/-- Details of a node that waits for a signal. -/
def waitDetails (spec : NodeSpec) : Entries Value :=
  [("signal_key", fieldOf "signal_key" (spec.field "params"))]

def details (spec : NodeSpec) : Except Fault (Entries Value) :=
  match spec.kind with
  | .executor => executorDetails spec
  | .choice => choiceDetails spec
  | .parallel => .ok (parallelDetails spec)
  | .foreach => .ok (foreachDetails spec)
  | .subflow => .ok (subflowDetails spec)
  | .waitEvent => .ok (waitDetails spec)
  | .approval | .other => .ok []

end FlowDiagram.Diagram
