import FlowDiagram.Store.Saving
/-!
# Rows as documents

A row also has the time at which it was made. The store never looks at it, so its
documents only say that there is one.
-/

namespace FlowDiagram.Store

open Document

/-- The mark of a row that was made. -/
def createdAt : Value := .bool true

def FlowRow.toValue (row : FlowRow) : Value :=
  .record [("id", .str row.id), ("name", .str row.name),
    ("description", .optional row.description), ("created_at", createdAt)]

/-- The document of a stored version, without its definition. -/
def VersionRow.toValue (row : VersionRow) : Value :=
  .record [("id", .str row.id), ("flow_id", .str row.flow), ("version", .int row.version),
    ("status", .optional row.status), ("created_at", createdAt)]

def CreatedFlow.toValue (flow : CreatedFlow) : Value :=
  .record [("id", .str flow.id), ("name", flow.name), ("description", flow.description)]

def SavedVersion.toValue (saved : SavedVersion) : Value :=
  .record [("id", .str saved.id), ("flow_id", saved.flow), ("version", .int saved.version),
    ("status", saved.status)]

end FlowDiagram.Store
