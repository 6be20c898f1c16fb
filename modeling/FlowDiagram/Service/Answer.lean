import FlowDiagram.Definition.Entries
import FlowDiagram.Json.Writer
import FlowDiagram.Text.Utf8
/-!
# Answers

An answer is a status and a document, or the reasons why a request is refused. Documents
are brought into a form that JSON has: dates and bytes become texts, and so do keys.
Numbers outside the real line have no such form, and then there is no answer.

Fields whose names begin with `_sa` are held back at every depth.
-/

namespace FlowDiagram.Service

open Document Definition

/-- Why a part of a request is refused. -/
inductive Reason where
  | missing
  | noText
  | noTruth
  /-- A number or text that names no truth value. -/
  | otherTruth
  | noInteger
  | noMapping
  /-- The body is no JSON. -/
  | noJson
  deriving DecidableEq, Repr

def Reason.name : Reason → String
  | .missing => "missing"
  | .noText => "string_type"
  | .noTruth => "bool_type"
  | .otherTruth => "bool_parsing"
  | .noInteger => "int_parsing"
  | .noMapping => "model_attributes_type"
  | .noJson => "json_invalid"

/-- A refused part of a request, with the value that was looked at. -/
structure Refusal where
  location : List String
  reason : Reason
  input : Value

inductive Body where
  | document (v : Value)
  | refusals (rs : List Refusal)

structure Answer where
  status : Nat
  body : Body

/-- A value as a key of a sendable mapping. -/
def sendableKey : Value → Value
  | .bytes bs => .str (String.ofList (Text.decodeLossy bs))
  | .date d => .str d.text
  | .moment t => .str t.text
  | v => v

/-- A field that is not sent. -/
def isHeldBack : Value → Bool
  | .str s => "_sa".toList.isPrefixOf s.toList
  | _ => false

mutual

/-- A value without dates, bytes and fields that are held back. -/
def sendable : Value → Value
  | .bytes bs => .str (String.ofList (Text.decodeLossy bs))
  | .date d => .str d.text
  | .moment t => .str t.text
  | .pair k v => .seq [sendable k, sendable v]
  | .seq items => .seq (sendableItems items)
  | .map entries => Value.ofEntries (sendableEntries entries)
  | v => v
termination_by structural v => v

def sendableItems : List Value → List Value
  | [] => []
  | v :: rest => sendable v :: sendableItems rest
termination_by structural vs => vs

def sendableEntries : List (Value × Value) → List (Value × Value)
  | [] => []
  | (k, v) :: rest =>
    if isHeldBack k then sendableEntries rest
    else (sendableKey k, sendable v) :: sendableEntries rest
termination_by structural es => es

end

/-- The text of a key that JSON has. -/
def fieldName? : Value → Option String
  | .float x => if isFinite x then some (Number.Style.document.render x) else none
  | k => (Json.keyText k).toOption

mutual

/-- A value with texts as keys. The last of several entries with one text counts. -/
def compliant? : Value → Option Value
  | .float x => if isFinite x then some (.float x) else none
  | .pair k v => do
    let k ← compliant? k
    let v ← compliant? v
    some (.seq [k, v])
  | .seq items => (compliantItems? items).map .seq
  | .map entries => (compliantEntries? entries).map fun es => .record (Entries.ofList es)
  | v => some v
termination_by structural v => v

def compliantItems? : List Value → Option (List Value)
  | [] => some []
  | v :: rest => do
    let v ← compliant? v
    let vs ← compliantItems? rest
    some (v :: vs)
termination_by structural vs => vs

/-- The entries of a mapping under their texts. -/
def compliantEntries? : List (Value × Value) → Option (List (String × Value))
  | [] => some []
  | (k, v) :: rest => do
    let name ← fieldName? k
    let v ← compliant? v
    let es ← compliantEntries? rest
    some ((name, v) :: es)
termination_by structural es => es

end

namespace Answer

/-- The answer with a document, if the document can be sent. -/
def ofValue? (status : Nat) (v : Value) : Option Answer :=
  (compliant? (sendable v)).map fun v => ⟨status, .document v⟩

/-- The answer with a single line about what went wrong. -/
def ofDetail (status : Nat) (detail : String) : Answer :=
  ⟨status, .document (.record [("detail", .str detail)])⟩

/-- The answer to a refused request. It shows the values that were looked at, so they must
be sendable. -/
def ofRefusals? (rs : List Refusal) : Option Answer :=
  if rs.all fun r => (compliant? r.input).isSome then some ⟨422, .refusals rs⟩ else none

end Answer

end FlowDiagram.Service
