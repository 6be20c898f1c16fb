import FlowDiagram.Definition.Basic
import FlowDiagram.Definition.Reference
/-!
# Definitions from documents

Every mapping that describes a flow, a node, its rules or a case must have texts as
keys; otherwise the whole definition is refused. So is one whose `nodes` are no mapping
of mappings or whose `edges` are no sequence. Any other typed field that does not fit is
only dropped.

An edge names its ends `from` and `to`. Where one of these is missing, `source` and
`target` are read instead.
-/

namespace FlowDiagram.Definition

open Document

/-- The fields of a mapping, if all keys are texts. -/
def fields? : List (Value × Value) → Option (Entries Value)
  | [] => some []
  | (.str k, v) :: rest => (fields? rest).map ((k, v) :: ·)
  | _ => none

def referenceField (v : Value) : Slot String := .ofOption (reference? v)

/-- Targets under their labels. A label may be written in several ways; the last target
counts, and labels without one are left out. -/
def targets (entries : List (Value × Value)) : Entries String :=
  (Entries.ofList (entries.map fun (k, v) => (referenceText k, reference? v))).filterMap
    fun (label, target) => target.map (label, ·)

def PostRules.ofFields : Entries Value → PostRules
  | [] => {}
  | (k, v) :: rest =>
    let rules := ofFields rest
    if k = "action_static" then { rules with actionStatic := referenceField v }
    else if k = "action_map" then
      { rules with
        actionMap := match v with
          | .map entries => .given (targets entries)
          | _ => .dropped }
    else { rules with others := (k, v) :: rules.others }

def Case.ofFields : Entries Value → Case
  | [] => {}
  | (k, v) :: rest =>
    let c := ofFields rest
    if k = "action" then { c with action := referenceField v }
    else { c with others := (k, v) :: c.others }

def Case.ofValue? : Value → Option Case
  | .map entries => (fields? entries).map ofFields
  | _ => none

/-- The rules of a node; what is no mapping holds none. -/
def postField? : Value → Option (Slot PostRules)
  | .map entries => (fields? entries).map (.given ∘ PostRules.ofFields)
  | _ => some .dropped

/-- The cases of a node. Items that are no mappings are left out. -/
def casesField? : Value → Option (Slot (List Case))
  | .seq items => ((items.filter Value.isMap).mapM Case.ofValue?).map .given
  | _ => some .dropped

/-- The first of two names that a mapping has, read as a reference. -/
def endpoint (name other : String) (v : Value) : Slot String :=
  match v.get? name with
  | some w => referenceField w
  | none =>
    match v.get? other with
    | some w => referenceField w
    | none => .absent

def EdgeEntry.ofValue (v : Value) : EdgeEntry where
  source := endpoint "from" "source" v
  target := endpoint "to" "target" v
  action := endpoint "action" "action" v

/-- The explicit edges of a scope. Items that are no mappings are left out. -/
def edgesField? : Value → Option (Slot (List EdgeEntry))
  | .null => some .dropped
  | .seq items => some (.given ((items.filter Value.isMap).map EdgeEntry.ofValue))
  | _ => none

/-- All entries, if none is refused. -/
def accepted? {α : Type} : Entries (Option α) → Option (Entries α)
  | [] => some []
  | (k, some v) :: rest => (accepted? rest).map ((k, v) :: ·)
  | (_, none) :: _ => none

mutual

def specOf? : List (Value × Value) → Option NodeSpec
  | [] => some {}
  | (k, v) :: rest =>
    match k with
    | .str name => do
      let spec ← specOf? rest
      if name = "post" then
        let post ← postField? v
        some { spec with post }
      else if name = "choice_cases" then
        let cases ← casesField? v
        some { spec with cases }
      else if name = "default_action" then
        some { spec with defaultAction := referenceField v }
      else if name = "subflow" then
        let subflow ← subflowField? v
        some { spec with subflow }
      else some { spec with others := (name, v) :: spec.others }
    | _ => none
termination_by structural es => es

/-- The scope inside a node; what is no mapping holds none. -/
def subflowField? : Value → Option (Slot Flow)
  | .map entries => (scopeOf? entries).map .given
  | _ => some .dropped
termination_by structural v => v

def scopeOf? : List (Value × Value) → Option Flow
  | [] => some {}
  | (k, v) :: rest =>
    match k with
    | .str name => do
      let scope ← scopeOf? rest
      if name = "start" then some { scope with start := referenceField v }
      else if name = "nodes" then
        let nodes ← nodes? v
        some { scope with nodes := .given nodes }
      else if name = "edges" then
        let edges ← edgesField? v
        some { scope with edges }
      else some { scope with others := (name, v) :: scope.others }
    | _ => none
termination_by structural es => es

/-- The nodes of a scope. A key may be written in several ways; the last node counts. -/
def nodes? : Value → Option (Entries NodeSpec)
  | .null => some []
  | .map entries => accepted? (Entries.ofList (nodeEntries entries))
  | _ => none
termination_by structural v => v

/-- The nodes in a mapping, each of which may be refused. -/
def nodeEntries : List (Value × Value) → List (String × Option NodeSpec)
  | [] => []
  | (k, v) :: rest => (referenceText k, node? v) :: nodeEntries rest
termination_by structural es => es

/-- A node of a scope; null is a node that says nothing. -/
def node? : Value → Option NodeSpec
  | .null => some {}
  | .map entries => specOf? entries
  | _ => none
termination_by structural v => v

end

def NodeSpec.ofValue? : Value → Option NodeSpec
  | .map entries => specOf? entries
  | _ => none

def Flow.ofValue? : Value → Option Flow
  | .map entries => scopeOf? entries
  | _ => none

end FlowDiagram.Definition
