import FlowDiagram.Definition.Entries
import FlowDiagram.Document.Value
/-!
# Flow definitions

A flow is a scope: nodes under their keys, a start, and possibly an explicit list of
edges. A node may hold a scope of its own. Only the fields that shape the graph are
typed; whatever else a document says about a node is kept as it is, so that it can be
shown.

A typed field that is present but does not fit is dropped, and this differs from a field
that the document does not mention: it is shown as null.
-/

namespace FlowDiagram.Definition

open Document

/-- A typed field of an entry in a document. -/
inductive Slot (α : Type) where
  /-- The document does not mention the field. -/
  | absent
  /-- The field is present, but its value is null or does not fit. -/
  | dropped
  | given (a : α)
  deriving DecidableEq, Repr

namespace Slot

variable {α β : Type}

def value? : Slot α → Option α
  | .given a => some a
  | .absent | .dropped => none

/-- A present field with the value it was read as. -/
def ofOption : Option α → Slot α
  | some a => .given a
  | none => .dropped

@[simp] theorem value?_ofOption (o : Option α) : (ofOption o).value? = o := by
  cases o <;> rfl

end Slot

/-- Rules for what follows a node. -/
structure PostRules where
  actionStatic : Slot String := .absent
  actionMap : Slot (Entries String) := .absent
  others : Entries Value := []

/-- A case of a choice. -/
structure Case where
  action : Slot String := .absent
  others : Entries Value := []

/-- An explicit edge. -/
structure EdgeEntry where
  source : Slot String := .absent
  target : Slot String := .absent
  action : Slot String := .absent

/-- A scope whose nodes are described by `ν`. -/
structure Scope (ν : Type) where
  start : Slot String := .absent
  nodes : Slot (List (String × ν)) := .absent
  edges : Slot (List EdgeEntry) := .absent
  others : Entries Value := []

structure NodeSpec where
  post : Slot PostRules := .absent
  cases : Slot (List Case) := .absent
  defaultAction : Slot String := .absent
  subflow : Slot (Scope NodeSpec) := .absent
  others : Entries Value := []

/-- A flow: the outermost scope. -/
abbrev Flow := Scope NodeSpec

/-- The nodes of a scope under their keys, in order. -/
def Scope.entries {ν : Type} (scope : Scope ν) : Entries ν := (scope.nodes.value?).getD []

def Flow.empty : Flow := { nodes := .given [] }

def Case.field (c : Case) (name : String) : Value := (c.others.get? name).getD .null

/-- A field of a node that does not shape the graph; one that is not mentioned is null. -/
def NodeSpec.field (spec : NodeSpec) (name : String) : Value := (spec.others.get? name).getD .null

inductive NodeKind where
  | executor
  | choice
  | parallel
  | foreach
  | subflow
  | approval
  | waitEvent
  | other
  deriving DecidableEq, Repr

namespace NodeKind

def name : NodeKind → String
  | .executor => "executor"
  | .choice => "choice"
  | .parallel => "parallel"
  | .foreach => "foreach"
  | .subflow => "subflow"
  | .approval => "approval"
  | .waitEvent => "wait_event"
  | .other => "other"

def all : List NodeKind :=
  [.executor, .choice, .parallel, .foreach, .subflow, .approval, .waitEvent, .other]

/-- The kind that a value names; whatever names none is `other`. -/
def ofValue : Value → NodeKind
  | .str s => (all.find? fun k => k.name == s).getD .other
  | _ => .other

end NodeKind

def NodeSpec.kind (spec : NodeSpec) : NodeKind := .ofValue (spec.field "kind")

/-- The scope that a node embeds in the graph. Only nodes of kind `subflow` do. -/
def NodeSpec.embedded? (spec : NodeSpec) : Option Flow :=
  if spec.kind = .subflow then spec.subflow.value? else none

end FlowDiagram.Definition
