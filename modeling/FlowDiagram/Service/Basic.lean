import FlowDiagram.Diagram.Display
import FlowDiagram.Parameters
import FlowDiagram.Service.Body
import FlowDiagram.Service.Target
import FlowDiagram.Store.Display
/-!
# The service

The service draws definitions that it is sent, and definitions that it was sent before
and keeps in a store. A stored definition is drawn like one that is sent with no choices
but the layout.

Most faults are answered. A label or a scalar that breaks a rule of its own is passed on
to whoever runs the service, and so is a number that no answer can hold.
-/

namespace FlowDiagram

open Document Layout

namespace Service

structure Request where
  method : String
  target : Target
  body : Option String := none

/-- Why a request has no answer. -/
inductive Fault where
  | diagram (fault : Diagram.Fault)
  /-- A number in the answer is infinite or undefined. -/
  | outOfRange
  /-- The body holds what no value is. -/
  | foreign (part : Foreign)
  deriving DecidableEq, Repr

def Fault.message : Fault → String
  | .diagram fault => fault.message
  | .outOfRange => "Out of range float values are not JSON compliant"
  | .foreign part => part.message

end Service

/-- A service with its store, and with the distances of its diagrams. -/
structure Service where
  spacing : Spacing Float
  store : Store

namespace Service

/-- What can be asked for. -/
inductive Endpoint where
  | health
  | render
  | parameters
  | createFlow
  | saveVersion (flow : String)
  | listVersions (flow : String)
  | showVersion (flow version : String)
  deriving DecidableEq, Repr

/-- What can be asked for at a path, by method. -/
def endpoints : List String → List (String × Endpoint)
  | ["", "health"] => [("GET", .health)]
  | ["", "api", "flows", "render"] => [("POST", .render)]
  | ["", "api", "flows", "params"] => [("POST", .parameters)]
  | ["", "api", "flows"] => [("POST", .createFlow)]
  | ["", "api", "flows", flow, "versions"] =>
    if flow.isEmpty then [] else [("POST", .saveVersion flow), ("GET", .listVersions flow)]
  | ["", "api", "flows", flow, "versions", version, "graph"] =>
    if flow.isEmpty || version.isEmpty then [] else [("GET", .showVersion flow version)]
  | _ => []

/-- A reply: an answer, or why there is none. -/
abbrev Reply := Except Fault Answer

/-- The reply with a document. -/
def reply (status : Nat) (v : Value) : Reply :=
  match Answer.ofValue? status v with
  | some answer => .ok answer
  | none => .error .outOfRange

/-- The reply with a single line about what went wrong. -/
def detailed (status : Nat) (detail : String) : Reply := .ok (.ofDetail status detail)

/-- The reply to a refused request. -/
def refused (rs : List Refusal) : Reply :=
  match Answer.ofRefusals? rs with
  | some answer => .ok answer
  | none => .error .outOfRange

/-- The reply to a refused body. -/
def refusedBody : BodyFault → Reply
  | .unread => detailed 400 "There was an error parsing the body"
  | .foreign part => .error (.foreign part)
  | .refused rs => refused rs

/-- A fault that is the sender's and is answered. -/
def isAnswered : Diagram.Fault → Bool
  | .source (.unread (.yaml fault)) =>
    match fault with
    | .wideEscape | .truth _ | .noDigits | .beyondDoubles | .time | .compoundTime
    | .foreign _ => false
    | .malformed | .codePoint | .calendar _ | .integer _ _ | .number _ | .longInteger _ => true
  | .source (.unread (.json fault)) =>
    match fault with
    | .malformed _ | .longInteger _ => true
    | .foreign _ => false
  | .source (.unknownLanguage _) | .layout _ | .field _ | .label .longInteger => true
  | .source (.notText _) | .label (.value _) | .label (.key _) => false

/-- The reply with the diagram of a definition. -/
def drawn (spacing : Spacing Float) (layout : String) (expanded : Bool) (definition : String)
    (language : Option String) : Reply :=
  match Diagram.ofSource spacing layout expanded (.str definition) (.optional language) with
  | .ok d => reply 200 d.toValue
  | .error fault =>
    if isAnswered fault then detailed 400 fault.message else .error (.diagram fault)

/-- The reply when the store fails. A flow that does not exist is the sender's fault. -/
def storeFailure (fault : Store.Fault) : Reply :=
  match fault with
  | .flowNotFound _ => detailed 404 fault.message
  | _ => detailed 500 fault.message

/-- The reply to a body that is read field by field. -/
def withBody {α : Type} (fields : Value → Except (List Refusal) α) (body : Option String)
    (next : α → Reply) : Reply :=
  match readBody fields body with
  | .ok a => next a
  | .error fault => refusedBody fault

/-- Draw a definition that is sent. -/
def render (s : Service) (body : Option String) : Reply :=
  withBody RenderRequest.ofFields body fun r =>
    drawn s.spacing r.layout r.expanded r.definition r.language

/-- Name the parameters of a definition that is sent. -/
def parameters (body : Option String) : Reply :=
  withBody definitionOf body fun definition =>
    reply 200 (.record [("params",
      .record ((Parameters.ofText definition).map fun name => (name, .str "")))])

def createFlow (s : Service) (body : Option String) : Reply × Service :=
  match readBody FlowRequest.ofFields body with
  | .error fault => (refusedBody fault, s)
  | .ok r =>
    match s.store.create (.str r.name) (.optional r.description) with
    | (.ok flow, store) => (reply 200 flow.toValue, { s with store })
    | (.error fault, store) => (detailed 500 fault.message, { s with store })

def saveVersion (s : Service) (flow : String) (body : Option String) : Reply × Service :=
  match readBody VersionRequest.ofFields body with
  | .error fault => (refusedBody fault, s)
  | .ok r =>
    match s.store.save ⟨.str flow, .str r.definition, .str r.status⟩ with
    | (.ok saved, store) => (reply 200 saved.toValue, { s with store })
    | (.error fault, store) => (storeFailure fault, { s with store })

def listVersions (s : Service) (flow : String) : Reply :=
  match s.store.versions (.str flow) with
  | .ok rows => reply 200 (.seq (rows.map Store.VersionRow.toValue))
  | .error fault => detailed 500 fault.message

/-- Draw a stored version. -/
def showVersion (s : Service) (flow version : String) (layout : Option String) : Reply :=
  match integerIn? version with
  | none => refused [⟨["path", "version"], .noInteger, .str version⟩]
  | some n =>
    match s.store.definition? (.str flow) (.int n) with
    | .error fault => detailed 500 fault.message
    | .ok none => detailed 404 ("Flow " ++ flow ++ " version " ++ toString n ++ " not found")
    | .ok (some definition) =>
      drawn s.spacing (layout.getD "hierarchical") true definition none

def respond (s : Service) (r : Request) : Endpoint → Reply × Service
  | .health => (reply 200 (.record [("status", .str "ok")]), s)
  | .render => (s.render r.body, s)
  | .parameters => (parameters r.body, s)
  | .createFlow => s.createFlow r.body
  | .saveVersion flow => s.saveVersion flow r.body
  | .listVersions flow => (s.listVersions flow, s)
  | .showVersion flow version => (s.showVersion flow version (r.target.parameter? "layout"), s)

/-- Reply to a request at its own path. -/
def dispatch (s : Service) (r : Request) : Reply × Service :=
  let found := endpoints r.target.parts
  match found.lookup r.method with
  | some endpoint => s.respond r endpoint
  | none =>
    (if found.isEmpty then detailed 404 "Not Found" else detailed 405 "Method Not Allowed", s)

/-- Where nothing is found at a target, but something without the slashes at its end, that
is asked for anew, by its decoded path. The number bounds how often this happens. -/
def settled : Nat → Target → Target
  | 0, t => t
  | n + 1, t =>
    if (endpoints t.parts).isEmpty && !(endpoints t.trimmed.parts).isEmpty then
      settled n t.trimmed.reread
    else t

def handle (s : Service) (r : Request) : Reply × Service :=
  s.dispatch { r with target := settled r.target.path.length r.target }

/-- Start a service: its store is connected and gets its tables. -/
def start (spacing : Spacing Float) (store : Store) : Except Store.Fault Service := do
  let (opened, store) := store.connect
  opened
  let (made, store) := store.prepare
  made
  .ok ⟨spacing, store⟩

/-- The service with its store closed. -/
def closeStore (s : Service) : Service := { s with store := s.store.close.2 }

end Service

end FlowDiagram
