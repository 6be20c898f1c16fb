import FlowDiagram.Transition.Label
/-!
# Transitions of a scope

A scope with an `edges` field has exactly the transitions listed there. Otherwise each
node says where it continues: by its rules, and if it is a choice also by its cases and
its default.
-/

namespace FlowDiagram

open Document Definition Json

/-- A transition between two nodes of a scope, by their keys. A missing end leaves it
dangling. -/
structure Transition where
  source : Option String
  target : Option String
  action : Option String
  deriving DecidableEq, Repr

namespace Transition

/-- Empty references lead nowhere. -/
def nonEmpty (r : Option String) : Option String := r.filter (!·.isEmpty)

def leaving (key : String) (target : String) (action : Option String) : Transition :=
  ⟨some key, some target, action⟩

def ofRules (key : String) (rules : PostRules) : List Transition :=
  ((nonEmpty rules.actionStatic.value?).map (leaving key · none)).toList ++
    (rules.actionMap.value?.getD []).map fun (label, target) => leaving key target (some label)

/-- The cases of a node with their labels. -/
def labelled : List Case → Int → Except Unwritable (List (String × Case))
  | [], _ => .ok []
  | c :: rest, index => do
    let label ← caseLabel c index
    let others ← labelled rest (index + 1)
    .ok ((label, c) :: others)

/-- A case of a choice as it is shown. -/
structure CaseLabel where
  label : String
  target : Option String
  deriving DecidableEq, Repr

/-- The labels and targets of all cases of a node, in order. -/
def caseLabels (spec : NodeSpec) : Except Unwritable (List CaseLabel) := do
  let cases ← labelled (spec.cases.value?.getD []) 0
  .ok (cases.map fun (label, c) => ⟨label, c.action.value?⟩)

/-- The transitions of the cases that have a target. Cases without one need no label. -/
def ofCases (key : String) : List Case → Int → Except Unwritable (List Transition)
  | [], _ => .ok []
  | c :: rest, index =>
    match nonEmpty c.action.value? with
    | none => ofCases key rest (index + 1)
    | some target => do
      let label ← caseLabel c index
      let others ← ofCases key rest (index + 1)
      .ok (leaving key target (some label) :: others)

/-- The transition by the default of a choice. -/
def ofDefault (key : String) (spec : NodeSpec) : List Transition :=
  ((nonEmpty spec.defaultAction.value?).map (leaving key · (some "default"))).toList

/-- The transitions that a node's own fields imply. -/
def ofNode (key : String) (spec : NodeSpec) : Except Unwritable (List Transition) := do
  let byRules := (spec.post.value?.map (ofRules key)).getD []
  if spec.kind = .choice then
    let byCases ← ofCases key (spec.cases.value?.getD []) 0
    .ok (byRules ++ byCases ++ ofDefault key spec)
  else .ok byRules

def ofEdge (e : EdgeEntry) : Transition := ⟨e.source.value?, e.target.value?, e.action.value?⟩

/-- The transitions that the nodes imply, node by node. -/
def implied : Entries NodeSpec → Except Unwritable (List Transition)
  | [] => .ok []
  | (key, spec) :: rest => do
    let first ← ofNode key spec
    let others ← implied rest
    .ok (first ++ others)

def ofScope (scope : Flow) : Except Unwritable (List Transition) :=
  match scope.edges.value? with
  | some edges => .ok (edges.map ofEdge)
  | none => implied scope.entries

/-- Whether a scope lists its edges. -/
def isExplicit (scope : Flow) : Bool := scope.edges.value?.isSome

end Transition

end FlowDiagram
