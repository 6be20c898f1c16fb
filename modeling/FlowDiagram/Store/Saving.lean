import FlowDiagram.Document.Display
import FlowDiagram.Store.Basic
/-!
# Saving versions

A version is saved in steps, and between them other operations may reach the store: the
flow is looked up, its last version is looked up, the row is added, and the addition is
made final. Two saves that see the same last version cannot both add their row.
-/

namespace FlowDiagram.Store

open Document

/-- A definition to be saved as the next version of a flow. -/
structure Draft where
  flow : Value
  definition : Value
  status : Value := .str "draft"

structure SavedVersion where
  id : String
  flow : Value
  version : Nat
  status : Value

/-- How far a save has come. -/
inductive Saving where
  | started
  /-- The flow exists. -/
  | found
  /-- The next version is known. -/
  | numbered (version : Nat)
  /-- The row is added. -/
  | added (saved : SavedVersion)
  | saved (saved : SavedVersion)
  | failed (fault : Fault)

/-- The row of a new version. The flow is the text that it was found by. -/
def versionRow (id flow : String) (version : Nat) (d : Draft) : Except Fault VersionRow := do
  let definition ← Cell.ofValue 4 d.definition
  let status ← Cell.ofValue 5 d.status
  match definition.text? with
  | some definition => .ok ⟨id, flow, version, definition, status.text?⟩
  | none => .error (.missing "flow_versions.definition_json")

/-- The text that a flow is found by. -/
def flowText (d : Draft) : Except Fault String := do
  let flow ← Cell.ofValue 1 d.flow
  .ok (flow.text?.getD "")

def findFlow (s : Store) (d : Draft) : Except Fault Unit := do
  match ← s.flow? d.flow with
  | some _ => .ok ()
  | none => .error (.flowNotFound d.flow.display)

def nextVersion (s : Store) (d : Draft) : Except Fault Nat := do
  let tables ← s.tables "flow_versions"
  let flow ← flowText d
  .ok (tables.lastVersion flow + 1)

def addVersion (s : Store) (d : Draft) (id : String) (version : Nat) : Except Fault Tables := do
  let tables ← s.tables "flow_versions"
  let flow ← flowText d
  let row ← versionRow id flow version d
  tables.addVersion row

/-- The next step of a save. -/
def advance (s : Store) (d : Draft) : Saving → Saving × Store
  | .started =>
    match s.findFlow d with
    | .ok () => (.found, s)
    | .error fault => (.failed fault, s)
  | .found =>
    match s.nextVersion d with
    | .ok version => (.numbered version, s)
    | .error fault => (.failed fault, s)
  | .numbered version =>
    let (id, drawn) := s.draw
    match s.addVersion d id version with
    | .ok tables =>
      (.added ⟨id, d.flow, version, d.status⟩, { drawn with connection := .ready tables })
    | .error fault => (.failed fault, drawn)
  | .added saved => (.saved saved, s)
  | .saved saved => (.saved saved, s)
  | .failed fault => (.failed fault, s)

/-- So many steps of a save. -/
def advances (d : Draft) : Nat → Saving × Store → Saving × Store
  | 0, current => current
  | n + 1, (saving, s) => advances d n (s.advance d saving)

/-- Save a version without interruption. -/
def save (s : Store) (d : Draft) : Outcome SavedVersion :=
  match advances d 4 (.started, s) with
  | (.saved saved, s) => (.ok saved, s)
  | (.failed fault, s) => (.error fault, s)
  | (_, s) => (.error .notConnected, s)

end FlowDiagram.Store
