import FlowDiagram.Store.Cell
/-!
# Stores of flows

A store keeps flows and the versions of their definitions. Flows and versions get
identifiers that are numbered in the order in which they are drawn. Rows are only ever
added, and the versions of a flow count up from one.
-/

namespace FlowDiagram

open Document

namespace Store

structure FlowRow where
  id : String
  name : String
  description : Option String
  deriving DecidableEq, Repr

structure VersionRow where
  id : String
  flow : String
  version : Nat
  definition : String
  status : Option String
  deriving DecidableEq, Repr

/-- All rows in the order in which they were added. -/
structure Tables where
  flows : List FlowRow := []
  versions : List VersionRow := []
  deriving DecidableEq, Repr

namespace Tables

def flow? (t : Tables) (id : String) : Option FlowRow := t.flows.find? (·.id == id)

/-- The versions of a flow. As they count up, they are in order. -/
def versionsOf (t : Tables) (flow : String) : List VersionRow := t.versions.filter (·.flow == flow)

/-- The last version of a flow, and zero if there is none. -/
def lastVersion (t : Tables) (flow : String) : Nat :=
  ((t.versionsOf flow).map VersionRow.version).foldl max 0

def addFlow (t : Tables) (row : FlowRow) : Tables := { t with flows := t.flows ++ [row] }

/-- The tables with one more version, unless the flow has it already. -/
def addVersion (t : Tables) (row : VersionRow) : Except Fault Tables :=
  if t.versions.any fun r => r.flow == row.flow && r.version == row.version then
    .error .versionTaken
  else .ok { t with versions := t.versions ++ [row] }

end Tables

/-- The connection of a store with its database. -/
inductive Connection where
  | closed
  /-- The database has no tables yet. -/
  | empty
  | ready (tables : Tables)
  deriving DecidableEq, Repr

end Store

/-- A store with the number of identifiers that have been drawn. -/
structure Store where
  /-- The database can be opened. -/
  reachable : Bool := true
  connection : Store.Connection := .closed
  drawn : Nat := 0
  deriving DecidableEq, Repr

namespace Store

/-- A flow as it was asked for. -/
structure CreatedFlow where
  id : String
  name : Value
  description : Value

/-- What an operation gives, and the store after it. -/
abbrev Outcome (α : Type) := Except Fault α × Store

/-- Draw an identifier. -/
def draw (s : Store) : String × Store :=
  ("id-" ++ toString (s.drawn + 1), { s with drawn := s.drawn + 1 })

/-- The tables of a connected store. One of them is named for the case that there are none. -/
def tables (s : Store) (needed : String) : Except Fault Tables :=
  match s.connection with
  | .closed => .error .notConnected
  | .empty => .error (.noTable needed)
  | .ready tables => .ok tables

/-- Open a database. It is a new one each time. -/
def connect (s : Store) : Outcome Unit :=
  if s.reachable then (.ok (), { s with connection := .empty }) else (.error .cannotOpen, s)

/-- Close the database, if there is one. -/
def close (s : Store) : Outcome Unit := (.ok (), { s with connection := .closed })

/-- Make the tables unless they exist. -/
def prepare (s : Store) : Outcome Unit :=
  match s.connection with
  | .closed => (.error .notConnected, s)
  | .empty => (.ok (), { s with connection := .ready {} })
  | .ready _ => (.ok (), s)

/-- The row of a new flow. -/
def flowRow (id : String) (name description : Value) : Except Fault FlowRow := do
  let name ← Cell.ofValue 2 name
  let description ← Cell.ofValue 3 description
  match name.text? with
  | some name => .ok ⟨id, name, description.text?⟩
  | none => .error (.missing "flows.name")

/-- Add a flow. Its identifier is drawn even if it cannot be added. -/
def create (s : Store) (name description : Value) : Outcome CreatedFlow :=
  if s.connection = .closed then (.error .notConnected, s)
  else
    let (id, drawn) := s.draw
    match s.tables "flows" with
    | .error fault => (.error fault, drawn)
    | .ok tables =>
      match flowRow id name description with
      | .error fault => (.error fault, drawn)
      | .ok row =>
        (.ok ⟨id, name, description⟩, { drawn with connection := .ready (tables.addFlow row) })

def flow? (s : Store) (id : Value) : Except Fault (Option FlowRow) := do
  let tables ← s.tables "flows"
  let id ← Cell.ofValue 1 id
  .ok (id.text?.bind tables.flow?)

/-- The text of a version of a flow. -/
def definition? (s : Store) (flow version : Value) : Except Fault (Option String) := do
  let tables ← s.tables "flow_versions"
  let flow ← Cell.ofValue 1 flow
  let version ← Cell.ofValue 2 version
  let rows := (flow.text?.map tables.versionsOf).getD []
  .ok ((rows.find? fun row => version.isVersion row.version).map VersionRow.definition)

/-- The versions of a flow in order. -/
def versions (s : Store) (flow : Value) : Except Fault (List VersionRow) := do
  let tables ← s.tables "flow_versions"
  let flow ← Cell.ofValue 1 flow
  .ok ((flow.text?.map tables.versionsOf).getD [])

end Store

end FlowDiagram
