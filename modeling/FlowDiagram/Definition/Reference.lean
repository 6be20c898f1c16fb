import FlowDiagram.Document.Display
import FlowDiagram.Json.Writer
/-!
# References

Nodes are referred to by text. A document may write a reference as any scalar, which
then counts as the text it is written with; a sequence, a mapping or null refers to
nothing.
-/

namespace FlowDiagram.Definition

open Document

/-- The text that a value is as a node key or as a label. -/
def referenceText : Value → String
  | .str s => s
  | .null => "null"
  | .bool b => Json.truth b
  | .int n => toString n
  | .float x => Number.Style.document.render x
  | v => v.display

/-- The node or label that a value refers to. -/
def reference? : Value → Option String
  | .null | .seq _ | .map _ => none
  | v => some (referenceText v)

@[simp] theorem referenceText_str (s : String) : referenceText (.str s) = s := rfl

@[simp] theorem reference?_str (s : String) : reference? (.str s) = some s := rfl

end FlowDiagram.Definition
