import FlowDiagram.Definition.Payload
import FlowDiagram.Definition.Source
/-!
# Why there is no diagram

A source may be refused, the layout may be unknown, and a label or a shown field may have
no text.
-/

namespace FlowDiagram.Diagram

open Definition Json

/-- Why a definition has no diagram. -/
inductive Fault where
  | source (fault : SourceFault)
  /-- There is no layout of this name. -/
  | layout (name : String)
  /-- An operand of a condition cannot be written. -/
  | label (fault : Unwritable)
  /-- A field holds bytes that are no text. -/
  | field (fault : BadBytes)
  deriving DecidableEq, Repr

def Fault.message : Fault → String
  | .source fault => fault.message
  | .layout name => "Unknown layout algorithm: " ++ name
  | .label fault => fault.message
  | .field fault => fault.message

end FlowDiagram.Diagram
