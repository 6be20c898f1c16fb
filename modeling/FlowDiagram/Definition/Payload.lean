import FlowDiagram.Definition.Reading
import FlowDiagram.Text.Utf8
/-!
# What a definition shows of itself

The payload of a node holds the fields that its document mentions and no others: typed
fields as they were understood, all others as they were written, and everything in a
form that JSON has. Numbers outside the real line become null, dates and bytes become
texts, and keys that are no texts are written as such. The fields that are known come
first, in an order of their own, and the others follow in that of the document; so of
several fields that cannot be shown, the first of this order is reported.
-/

namespace FlowDiagram.Definition

open Document

/-- Bytes that are no text cannot be shown: the first bad byte and its offset. -/
structure BadBytes where
  byte : UInt8
  offset : Nat
  deriving DecidableEq, Repr

def BadBytes.message (e : BadBytes) : String :=
  "'utf-8' codec can't decode byte 0x" ++ String.ofList (Text.hex 2 e.byte.toNat) ++ " in position "
    ++ toString e.offset ++ ": invalid utf-8"

/-- The text that bytes encode. -/
def textOfBytes (bs : List UInt8) : Except BadBytes String :=
  match Text.decode bs with
  | .ok cs => .ok (String.ofList cs)
  | .error offset => .error ⟨bs.getD offset 0, offset⟩

/-- The text of a key. -/
def plainKey : Value → Except BadBytes String
  | .null => .ok "None"
  | .bool b => .ok (Json.truth b)
  | .int n => .ok (toString n)
  | .float x => .ok (if isFinite x then Number.Style.display.render x else "None")
  | .str s => .ok s
  | .bytes bs => textOfBytes bs
  | .date d => .ok d.text
  | .moment t => .ok t.zuluText
  | v => .ok v.display

mutual

/-- The form of a value that JSON has. -/
def plain : Value → Except BadBytes Value
  | .null => .ok .null
  | .bool b => .ok (.bool b)
  | .int n => .ok (.int n)
  | .float x => .ok (if isFinite x then .float x else .null)
  | .str s => .ok (.str s)
  | .bytes bs => (textOfBytes bs).map .str
  | .date d => .ok (.str d.text)
  | .moment t => .ok (.str t.zuluText)
  | .pair k v => do
    let k ← plain k
    let v ← plain v
    .ok (.seq [k, v])
  | .seq items => (plainItems items).map .seq
  | .map entries => (plainEntries entries).map fun es => .record (Entries.ofList es)
termination_by structural v => v

def plainItems : List Value → Except BadBytes (List Value)
  | [] => .ok []
  | v :: rest => do
    let v ← plain v
    let vs ← plainItems rest
    .ok (v :: vs)
termination_by structural vs => vs

/-- The entries of a mapping under their texts. -/
def plainEntries : List (Value × Value) → Except BadBytes (List (String × Value))
  | [] => .ok []
  | (k, v) :: rest => do
    let k ← plainKey k
    let v ← plain v
    let es ← plainEntries rest
    .ok ((k, v) :: es)
termination_by structural es => es

end

/-- Fields that are shown as they were written. -/
def plainFields : Entries Value → Except BadBytes (Entries Value)
  | [] => .ok []
  | (k, v) :: rest => do
    let v ← plain v
    let es ← plainFields rest
    .ok ((k, v) :: es)

/-- A typed field under its name, if the document mentions it. A dropped one is null. -/
def Slot.show {α : Type} (name : String) (f : α → Value) : Slot α → Entries Value
  | .absent => []
  | .dropped => [(name, .null)]
  | .given a => [(name, f a)]

/-- The untyped fields that rules are known to have. -/
def PostRules.known : List String := ["action_key", "output_key", "output_map"]

/-- The untyped fields that a case is known to have. -/
def Case.known : List String := ["expr", "cond_eq", "cond_gt"]

/-- The untyped fields that a node is known to have, in front of the typed ones. -/
def NodeSpec.leading : List String := ["kind", "service", "exec_type", "func", "params"]

/-- The untyped fields that a node is known to have, behind the typed ones. -/
def NodeSpec.trailing : List String :=
  ["parallel_mode", "max_parallel", "parallel_services", "parallel_execs", "foreach_execs", "flow_id"]

def PostRules.payload (rules : PostRules) : Except BadBytes Value := do
  let others ← plainFields (rules.others.among known ++ rules.others.outside known)
  let labels (es : Entries String) : Value := .record (es.map fun (k, v) => (k, .str v))
  .ok (.record (rules.actionStatic.show "action_static" .str ++
    rules.actionMap.show "action_map" labels ++ others))

def Case.payload (c : Case) : Except BadBytes Value := do
  let others ← plainFields (c.others.among known ++ c.others.outside known)
  .ok (.record (c.action.show "action" .str ++ others))

def EdgeEntry.payload (e : EdgeEntry) : Value :=
  .record (e.source.show "from" .str ++ e.target.show "to" .str ++ e.action.show "action" .str)

/-- A typed field whose shown form may be refused. -/
def Slot.showM {α : Type} (name : String) (f : α → Except BadBytes Value) :
    Slot α → Except BadBytes (Entries Value)
  | .absent => .ok []
  | .dropped => .ok [(name, .null)]
  | .given a => (f a).map fun v => [(name, v)]

mutual

/-- The fields of a node that its document mentions. -/
def NodeSpec.payload : NodeSpec → Except BadBytes (Entries Value)
  | ⟨post, cases, defaultAction, subflow, others⟩ => do
    let first ← plainFields (others.among NodeSpec.leading)
    let post ← post.showM "post" PostRules.payload
    let cases ← cases.showM "choice_cases" fun cs => (cs.mapM Case.payload).map .seq
    let subflow ← shownScope subflow
    let last ← plainFields (others.among NodeSpec.trailing ++
      others.outside (NodeSpec.leading ++ NodeSpec.trailing))
    .ok (first ++ post ++ cases ++ defaultAction.show "default_action" .str ++ subflow ++ last)
termination_by structural s => s

/-- The scope inside a node. -/
def shownScope : Slot (Scope NodeSpec) → Except BadBytes (Entries Value)
  | .absent => .ok []
  | .dropped => .ok [("subflow", .null)]
  | .given scope => (scopePayload scope).map fun v => [("subflow", v)]
termination_by structural f => f

/-- The shown form of a scope. -/
def scopePayload : Scope NodeSpec → Except BadBytes Value
  | ⟨start, nodes, edges, others⟩ => do
    let nodes ← shownNodes nodes
    let others ← plainFields others
    .ok (.record (start.show "start" .str ++ nodes ++
      edges.show "edges" (fun es => .seq (es.map EdgeEntry.payload)) ++ others))
termination_by structural s => s

def shownNodes : Slot (List (String × NodeSpec)) → Except BadBytes (Entries Value)
  | .absent => .ok []
  | .dropped => .ok [("nodes", .null)]
  | .given specs => (payloads specs).map fun es => [("nodes", .record es)]
termination_by structural f => f

/-- The shown forms of nodes under their keys. -/
def payloads : List (String × NodeSpec) → Except BadBytes (Entries Value)
  | [] => .ok []
  | (k, spec) :: rest => do
    let shown ← spec.payload
    let es ← payloads rest
    .ok ((k, .record shown) :: es)
termination_by structural es => es

end

end FlowDiagram.Definition
