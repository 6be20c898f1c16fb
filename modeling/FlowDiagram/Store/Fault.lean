/-!
# Why a store refuses

A store must be connected and have its tables. Values must fit into columns, and a new
version needs a flow that exists.
-/

namespace FlowDiagram.Store

/-- Why an operation of a store fails. -/
inductive Fault where
  /-- The database cannot be opened. -/
  | cannotOpen
  | notConnected
  | noTable (name : String)
  /-- A column that must have a value is given none. -/
  | missing (column : String)
  /-- The flow has this version already. -/
  | versionTaken
  | flowNotFound (flow : String)
  /-- An integer does not fit into 64 bits. -/
  | tooLarge
  /-- The value at a position of a statement has a type that no column holds. -/
  | unsupported (position : Nat) (type : String)
  deriving DecidableEq, Repr

def Fault.message : Fault → String
  | .cannotOpen => "unable to open database file"
  | .notConnected => "Flow store is not connected"
  | .noTable name => "no such table: " ++ name
  | .missing column => "NOT NULL constraint failed: " ++ column
  | .versionTaken => "UNIQUE constraint failed: flow_versions.flow_id, flow_versions.version"
  | .flowNotFound flow => "Flow " ++ flow ++ " not found"
  | .tooLarge => "Python int too large to convert to SQLite INTEGER"
  | .unsupported position type =>
    "Error binding parameter " ++ toString position ++ ": type '" ++ type ++ "' is not supported"

end FlowDiagram.Store
