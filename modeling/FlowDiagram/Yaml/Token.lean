import FlowDiagram.Yaml.Fault
/-!
# Tokens of a document

Indentation is made explicit by tokens that open and close block collections. A key that
is written without a question mark gets its `key` token once the colon behind it has been
seen. A text that stops making sense ends in a `broken` token, so that what stands before
it can still be judged first.
-/

namespace FlowDiagram.Yaml

/-- A line that begins with a percent sign. -/
inductive Directive where
  | version (major minor : Nat)
  | handle (name expansion : String)
  | other
  deriving DecidableEq, Repr

/-- A token. A tag is a handle, unless it is written out in full, and a suffix. -/
inductive Token where
  | directive (d : Directive)
  | documentStart
  | documentEnd
  | textEnd
  | openBlockSeq
  | openBlockMap
  | closeBlock
  | openFlowSeq
  | closeFlowSeq
  | openFlowMap
  | closeFlowMap
  | comma
  | entry
  | key
  | value
  | alias (name : String)
  | anchor (name : String)
  | tag (handle : Option String) (suffix : String)
  | scalar (text : String) (plain : Bool)
  | broken (fault : Fault)
  deriving DecidableEq, Repr

end FlowDiagram.Yaml
