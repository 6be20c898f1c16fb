import FlowDiagram.Proofs.Definition.RoundTrip
import FlowDiagram.Proofs.Diagram.Nesting
/-!
# The data of a drawn node

A drawn node shows the payload of its entry and, written over it, what the diagram says of the node
itself: its label, its kind, whether the flow starts with it, and its details (`drawn_data`). The
payload of an entry that is read from a JSON document has each name once, so every other field of it
is found in the data under its name, with its value. That there is a payload is said apart
(`NodeSpec.InJson.exists_payload`).

A document can use the names of what is written over it. A field `label` is in the payload, but the
drawn node shows its own label instead (`drawn_data_labelled`).
-/

namespace FlowDiagram

open Document Definition Layout

namespace Definition

/-! ## Names of a payload -/

section

variable {names : List String} {v : Value} {fields : Entries Value} {spec : NodeSpec}

/-- The fields of a document stand under different names. -/
theorem nodup_names_fieldsBeside {es : List (Value × Value)}
    (document : Json.IsDocument (.map es)) :
    (fieldsBeside names es).names.Nodup := by
  obtain ⟨fields, rfl, distinct, -⟩ := document.exists_fields
  change (fieldsBeside names (written fields)).names.Nodup
  rw [fieldsBeside_written]
  exact distinct.sublist (List.filter_sublist.map _)

/-- What is shown of a node from a document stands under different names. -/
theorem nodup_names_payload (document : Json.IsDocument v) (read : node? v = some spec)
    (shows : spec.payload = .ok fields) : fields.names.Nodup := by
  cases v with
  | null =>
      cases read
      cases shows
      exact List.nodup_nil
  | map es =>
      obtain ⟨-, -, -, -, rfl⟩ := specOf?_eq_some_iff.mp read
      obtain ⟨first, post, cases', subflow, last, leading, ownPost, ownCases, ownSubflow, trailing,
        rfl⟩ := payload_eq_ok_iff.mp shows
      obtain ⟨kept, -, -⟩ := shownFields_of_parts (by decide) leading trailing
      have typed := typed_nodeParts (nodeOf es) (names_showM ownPost) (names_showM ownCases)
        (names_showM ownSubflow)
      exact typed.nodup_names first (kept.distinct (nodup_names_fieldsBeside document))
        (not_mem_names_others kept.names)
  | _ => contradiction

end

/-- Where entries are written after others, theirs count. -/
theorem Entries.get?_ofList_append {α : Type} (es later : Entries α) (name : String) :
    (Entries.ofList (es ++ later)).get? name =
      ((Entries.ofList later).get? name).or ((Entries.ofList es).get? name) := by
  rw [Entries.get?_ofList, Entries.get?_ofList, Entries.get?_ofList, List.reverse_append]
  exact Entries.get?_append later.reverse es.reverse name

end Definition

namespace Diagram

open FlowDiagram.Graph

/-! ## Data -/

/-- What a diagram says of a node itself, whatever its document says. -/
def ownFields (node : Node) (more : Entries Value) : Entries Value :=
  [("label", .str node.label), ("nodeKind", .str node.spec.kind.name),
    ("isStart", .bool node.isStart), ("details", .record more)]

section

variable {node : Node} {nodes : List Node} {shown : List Shape} {g : Graph} {d : Diagram}
variable {data fields more : Entries Value}

theorem shownData_eq_ok_iff : shownData node = .ok data ↔
    ∃ fields more, node.spec.payload = .ok fields ∧ details node.spec = .ok more ∧
      Entries.ofList (fields ++ ownFields node more) = data := by
  constructor
  · intro h
    obtain ⟨fields, shows, h⟩ := bind_eq_ok_iff.mp h
    obtain ⟨more, detailed, h⟩ := bind_eq_ok_iff.mp h
    exact ⟨fields, more, mapError_eq_ok_iff.mp shows, detailed, Except.ok.inj h⟩
  · rintro ⟨fields, more, shows, detailed, rfl⟩
    rw [shownData, shows, detailed]
    rfl

theorem names_ownFields (node : Node) (more : Entries Value) :
    (ownFields node more).names = ["label", "nodeKind", "isStart", "details"] := rfl

/-- Data with all fields of a payload, except where the diagram has a field of its own. -/
structure ShowsFields (node : Node) (more fields data : Entries Value) : Prop where
  own : ∀ e ∈ ownFields node more, data.get? e.1 = some e.2
  kept : ∀ e ∈ fields, e.1 ∉ (ownFields node more).names → data.get? e.1 = some e.2
  only : ∀ name, name ∉ (ownFields node more).names → data.get? name = fields.get? name

theorem showsFields (distinct : fields.names.Nodup) (node : Node) (more : Entries Value) :
    ShowsFields node more fields (Entries.ofList (fields ++ ownFields node more)) := by
  have apart : (ownFields node more).names.Nodup := by
    rw [names_ownFields]
    decide
  have found (name : String) : (Entries.ofList (fields ++ ownFields node more)).get? name =
      ((ownFields node more).get? name).or (fields.get? name) := by
    rw [Entries.get?_ofList_append, Entries.ofList_eq_self apart, Entries.ofList_eq_self distinct]
  have only (name : String) (other : name ∉ (ownFields node more).names) :
      (Entries.ofList (fields ++ ownFields node more)).get? name = fields.get? name := by
    rw [found, Entries.get?_eq_none_iff.mpr other, Option.none_or]
  refine ⟨fun e own => ?_, fun e member other => ?_, only⟩
  · rw [found, Entries.get?_of_mem apart own, Option.some_or]
  · rw [only e.1 other, Entries.get?_of_mem distinct member]

/-- A diagram draws the nodes of its graph in their order, each with its own data. -/
theorem exists_drawn_data {s : Spacing Float} {layout : String} (h : ofGraph s layout g = .ok d) :
    ∃ draw : Node → Shape, d.nodes = g.nodes.map draw ∧
      ∀ n ∈ g.nodes, (draw n).id = n.id ∧ shownData n = .ok (draw n).data := by
  obtain ⟨algorithm, -, h⟩ := bind_eq_ok_iff.mp h
  obtain ⟨shown, drawn, h⟩ := bind_eq_ok_iff.mp h
  obtain rfl := Except.ok.inj h
  obtain ⟨data, rfl, each⟩ := exists_showing drawn
  obtain ⟨move, moves, nodes⟩ := exists_arranged s g algorithm
  rw [nodes] at each
  refine ⟨fun n => Shape.showing (move n) (data (move n)), ?_, fun n member => ⟨(moves n).id, ?_⟩⟩
  · rw [nodes, List.map_map]
    rfl
  · exact (moves n).data.symm.trans (each (move n) (List.mem_map_of_mem member))

end

/-- Every field of the payload of a node from a JSON document is found in the data of the drawn
node, unless the diagram has a field of this name for each node. Nothing else is found there. -/
theorem drawn_data {v : Value} {node : Node} {fields : Entries Value}
    (document : Json.IsDocument v) (read : node? v = some node.spec)
    (shows : node.spec.payload = .ok fields) :
    ∃ more shape, details node.spec = .ok more ∧ Shape.ofNode node = .ok shape ∧
      shape.toValue.get? "data" = some (.record shape.data) ∧
      ShowsFields node more fields shape.data ∧
      ∀ s layout g d, node ∈ g.nodes → ofGraph s layout g = .ok d →
        ∃ draw : Node → Shape, d.nodes = g.nodes.map draw ∧ (draw node).id = node.id ∧
          (draw node).data = shape.data := by
  obtain ⟨more, detailed⟩ :=
    exists_details (inJson_of_node? v (Json.inJson_of_isDocument document) read)
  have shownData := shownData_eq_ok_iff.mpr ⟨fields, more, shows, detailed, rfl⟩
  have distinct := nodup_names_payload document read shows
  refine ⟨more, _, detailed, ofNode_eq_ok_iff.mpr ⟨_, shownData, rfl⟩, rfl,
    showsFields distinct node more, ?_⟩
  intro s layout g d member drawn
  obtain ⟨draw, nodes, each⟩ := exists_drawn_data drawn
  obtain ⟨id, own⟩ := each node member
  exact ⟨draw, nodes, id, Except.ok.inj (own.symm.trans shownData)⟩

/-- A node that runs a function, with a field of its own. -/
def retrying : Value :=
  .record [("kind", .str "executor"), ("func", .str "build"), ("max_retries", .int 2)]

def retryingNode : Node where
  id := "run"
  label := "run"
  spec := { others :=
    [("kind", .str "executor"), ("func", .str "build"), ("max_retries", .int 2)] }

theorem drawn_data_retrying :
    Json.IsDocument retrying ∧ node? retrying = some retryingNode.spec ∧
      retryingNode.spec.payload = .ok retryingNode.spec.others ∧
      ∃ shape, Shape.ofNode retryingNode = .ok shape ∧
        shape.data.get? "kind" = some (.str "executor") ∧
        shape.data.get? "max_retries" = some (.int 2) ∧
        shape.data.get? "label" = some (.str "run") := by
  have retries : Json.IsDocument (.int 2) := .int (by decide)
  have document : Json.IsDocument retrying :=
    .record (by decide) (by simp [Value.Canonical.str, retries])
  have read : node? retrying = some retryingNode.spec := rfl
  have shows : retryingNode.spec.payload = .ok retryingNode.spec.others := rfl
  obtain ⟨more, shape, -, drawn, -, data, -⟩ := drawn_data document read shows
  have own := names_ownFields retryingNode more
  refine ⟨document, read, shows, shape, drawn, data.kept _ (.head _) ?_,
    data.only "max_retries" ?_, data.own _ (.head _)⟩
  · rw [own]
    decide
  · rw [own]
    decide

/-- A text whose only node has a field `label`. -/
def labelledNode : String :=
  "\x7b\"nodes\": \x7b\"a\": \x7b\"label\": \"Pay\"\x7d\x7d\x7d"

def labelledSpec : NodeSpec where
  others := [("label", .str "Pay")]

theorem read_labelledNode :
    Json.read labelledNode.toList =
      .ok (.map [(.str "nodes", .map [(.str "a", .map [(.str "label", .str "Pay")])])]) := by
  cbv

/-- The payload of the node has the label that the text gives it, and the drawn node shows its
key instead. -/
theorem drawn_data_labelled :
    Json.IsDocument (.record [("label", .str "Pay")]) ∧
      node? (.record [("label", .str "Pay")]) = some labelledSpec ∧
      labelledSpec.payload = .ok [("label", .str "Pay")] ∧
      describedFlow labelledNode (some .json) = { nodes := .given [("a", labelledSpec)] } ∧
      ∃ d shape,
        ofSource Settings.customary.spacing "manual" true (.str labelledNode) (.str "json") =
          .ok d ∧ d.nodes = [shape] ∧ shape.data.get? "label" = some (.str "a") := by
  have described : describedFlow labelledNode (some .json) =
      { nodes := .given [("a", labelledSpec)] } := by
    rw [describedFlow, document?, Json.filled_of_read read_labelledNode, load, read_labelledNode]
    rfl
  have parsed : Flow.parse labelledNode (some .json) =
      .ok { nodes := .given [("a", labelledSpec)] } :=
    parse_of_described (by decide) read_labelledNode rfl
  refine ⟨.record (by decide) (by simp [Value.Canonical.str]), rfl, rfl, described, ?_⟩
  rw [ofSource_of_flow (ofSource_json_of_parse parsed)]
  exact ⟨_, _, rfl, rfl, rfl⟩

end Diagram

end FlowDiagram
