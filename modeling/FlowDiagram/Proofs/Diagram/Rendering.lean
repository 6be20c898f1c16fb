import FlowDiagram.Diagram.Basic
import FlowDiagram.Proofs.Definition.Fields
import FlowDiagram.Proofs.Definition.Source
import FlowDiagram.Proofs.Graph.Collapse
import FlowDiagram.Proofs.Layout.Complete
/-!
# Diagrams of JSON texts

Whatever a JSON text says, and also if it is none, there is a diagram for it, expanded or not,
in either layout and with any distances, unless an integer in it has too many digits
(`ofSource_json`). Labels, payloads and details cannot fail because all fields of the flow are
values of JSON. Nothing that is looked up on the way is missing: each key of a scope has its
ports, each node of the collapsed view its entry, and the layout finds what it needs
(`Graph.Placeable`), because identifiers differ.
-/

namespace FlowDiagram

open Document Definition Layout

namespace Graph

section

variable {within : String} {parent : Option String} {taken taken' : List String}
variable {specs : List (String × NodeSpec)} {emitted : Emitted} {flow : Flow} {g : Graph}

/-- Wherever the nodes of a scope are emitted, each of its keys has its ports. -/
def Ported (specs : List (String × NodeSpec)) : Prop :=
  ∀ within parent taken emitted taken', emit within parent taken specs = .ok (emitted, taken') →
    ∀ entry ∈ specs, ∃ p, emitted.ports.get? entry.1 = some p

theorem ported (specs : List (String × NodeSpec)) : Ported specs :=
  fun _ _ _ _ _ done _ listed => (emits_of_emit done).exists_port listed

/-- The nodes of a scope show what its entries say. -/
theorem Emits.inJson (run : Emits within parent taken specs emitted taken')
    (json : ∀ entry ∈ specs, NodeSpec.InJson entry.2) :
    ∀ n ∈ emitted.nodes, n.spec.InJson := by
  induction run with
  | nil => exact fun n member => absurd member List.not_mem_nil
  | plain closed after ih =>
      obtain ⟨own, others⟩ := List.forall_mem_cons.mp json
      exact List.forall_mem_cons.mpr ⟨own, ih others⟩
  | group claimed embeds inside derived after ihInside ihAfter =>
      obtain ⟨own, others⟩ := List.forall_mem_cons.mp json
      have body := own.body _ (NodeSpec.value?_of_embedded? embeds)
      refine List.forall_mem_cons.mpr ⟨own, List.forall_mem_append.mpr ⟨?_, ihAfter others⟩⟩
      exact ihInside fun entry listed => body.entry listed

theorem derivable_of_inJson (json : Flow.InJson flow) : Derivable flow := by
  induction json with
  | intro others own inside ih =>
      obtain ⟨ts, derived⟩ := (Flow.InJson.intro others own inside).exists_ofScope
      refine .intro derived ?_
      intro entry listed body embeds
      have held := NodeSpec.value?_of_embedded? embeds
      exact ih body (Flow.mem_bodies.mpr ⟨entry, listed, held⟩)

/-- A graph whose nodes have different identifiers and show values of JSON. -/
structure Drawable (g : Graph) : Prop where
  distinct : g.ids.Nodup
  inJson : ∀ n ∈ g.nodes, n.spec.InJson

theorem exists_ofFlow_of_inJson (json : Flow.InJson flow) :
    ∃ g, ofFlow flow = .ok g ∧ g.Drawable := by
  obtain ⟨inner, taken', expanded⟩ := exists_expand_iff.mpr (derivable_of_inJson json)
  obtain ⟨g, made, like⟩ := exists_ofFlow expanded
  obtain ⟨emitted, ts, run, -, rfl⟩ := expand_eq_ok_iff.mp expanded
  refine ⟨g, made, like.ids ▸ run.nodup_ids, ?_⟩
  intro n member
  have listed : n.bare ∈ emitted.nodes.map Node.bare := like.nodes ▸ List.mem_map_of_mem member
  obtain ⟨n', member', same⟩ := List.mem_map.mp listed
  have spec : n'.spec = n.spec := (congrArg Node.spec same :)
  exact spec ▸ run.inJson (fun entry listed => json.entry listed) n' member'

/-- The collapsed view of a flow from JSON has an entry for each of its nodes. -/
theorem exists_ofFlowFlat_of_inJson (json : Flow.InJson flow) (keyed : flow.entries.names.Nodup) :
    ∃ g, ofFlowFlat flow = .ok g ∧ g.Drawable ∧
      ∀ n ∈ g.nodes, flow.entries.get? n.id = some n.spec := by
  obtain ⟨ts, derived⟩ := json.exists_ofScope
  obtain ⟨g, made, bare, -⟩ := exists_ofFlow_collapsedFlow keyed derived
  have nodes := map_restored keyed bare
  have entry : ∀ n ∈ g.nodes.map (Node.restored flow.entries), (n.id, n.spec) ∈ flow.entries := by
    intro n member
    have listed := nodes ▸ List.mem_map_of_mem member
    obtain ⟨⟨key, spec⟩, held, same⟩ := List.mem_map.mp listed
    obtain ⟨rfl, -, -, rfl⟩ := by simpa only [Prod.mk.injEq] using same
    exact held
  refine ⟨_, (ofFlowFlat_eq flow).trans (by rw [made]; rfl), ⟨?_, ?_⟩, ?_⟩
  · have ids : (g.nodes.map (Node.restored flow.entries)).map Node.id = flow.entries.names := by
      have firsts := congrArg (List.map fun shown => shown.1) nodes
      rw [List.map_map, List.map_map, List.map_map] at firsts
      rw [List.map_map]
      exact firsts
    rw [Graph.ids, ids]
    exact keyed
  · exact fun n member => json.entry (entry n member)
  · exact fun n member => Entries.get?_of_mem keyed (entry n member)

end

/-! ## Look-ups of the layout -/

/-- All that the layout of a graph looks up is there: what the layout of each container needs,
the rectangle of each node and that of each parent. -/
structure Placeable (g : Graph) (s : Spacing Float) : Prop where
  containers : ∀ parent, children g.items parent ≠ [] →
    Complete (children g.items parent) (childArcs g.items g.arcs parent)
  nodes : ∀ n ∈ g.nodes, ∃ spot, (spots s g.items g.arcs).find? (·.id = n.id) = some spot
  parents : ∀ id parent, (Parents.kept g.items).lookup id = some parent →
    ∃ spot, (spots s g.items g.arcs).find? (·.id = parent) = some spot

theorem placeable_of_nodup {g : Graph} (distinct : g.ids.Nodup) (s : Spacing Float) :
    g.Placeable s := by
  rw [← ids_items] at distinct
  refine ⟨fun parent => complete_children g.arcs, ?_, ?_⟩
  · intro n member
    apply exists_spot s g.arcs distinct
    rw [ids_items]
    exact List.mem_map_of_mem member
  · intro id parent up
    exact exists_spot s g.arcs distinct (Parents.mem_of_lookup_kept distinct up).2

/-- A layout puts each node at the placement of its identifier. -/
theorem nodes_laidOut_eq (s : Spacing Float) (g : Graph) :
    (g.laidOut s).nodes = g.nodes.map fun n =>
      put n (placement (Parents.kept g.items) (spots s g.items g.arcs) n.id) := by
  rw [laidOut, placements, items, List.map_map, List.zipWith_map_right, List.zipWith_self]
  rfl

/-- A layout moves nodes and changes nothing of what they are. -/
theorem nodes_laidOut (s : Spacing Float) (g : Graph) :
    ∃ place : Node → Placement Float,
      (g.laidOut s).nodes = g.nodes.map fun n => put n (place n) :=
  ⟨_, nodes_laidOut_eq s g⟩

end Graph

namespace Diagram

open Transition

variable {spec : NodeSpec} {nodes : List Graph.Node} {g : Graph}

theorem exists_details (json : spec.InJson) : ∃ shown, details spec = .ok shown := by
  unfold details
  split
  · obtain ⟨shown, found⟩ := json.exists_payload
    exact ⟨_, by rw [executorDetails, found]; rfl⟩
  · obtain ⟨list, found⟩ := exists_labelled json.getD_cases 0
    exact ⟨_, by rw [choiceDetails, caseLabels, found]; rfl⟩
  all_goals exact ⟨_, rfl⟩

theorem exists_shapes (json : ∀ n ∈ nodes, n.spec.InJson) :
    ∃ shown, shapes nodes = .ok shown ∧ shown.map Shape.id = nodes.map Graph.Node.id := by
  induction nodes with
  | nil => exact ⟨[], rfl, rfl⟩
  | cons n rest ih =>
      obtain ⟨own, others⟩ := List.forall_mem_cons.mp json
      obtain ⟨fields, payload⟩ := own.exists_payload
      obtain ⟨more, found⟩ := exists_details own
      obtain ⟨shown, later, ids⟩ := ih others
      refine ⟨_, by rw [shapes, Shape.ofNode, shownData, payload, found, later]; rfl, ?_⟩
      rw [List.map_cons, List.map_cons, ids]

theorem chosenAlgorithm_name (algorithm : Algorithm) :
    chosenAlgorithm algorithm.name = .ok algorithm := by
  cases algorithm <;> decide +kernel

/-- A node that is moved stays the same and has the same to show. -/
structure Moves (n moved : Graph.Node) : Prop where
  id : moved.id = n.id
  spec : moved.spec = n.spec
  data : shownData moved = shownData n

/-- The nodes of a graph in their places, whatever puts them there. -/
theorem exists_arranged (s : Spacing Float) (g : Graph) (algorithm : Algorithm) :
    ∃ move : Graph.Node → Graph.Node, (∀ n, Moves n (move n)) ∧
      (arranged s g algorithm).nodes = g.nodes.map move := by
  cases algorithm with
  | hierarchical =>
      obtain ⟨place, nodes⟩ := Graph.nodes_laidOut s g
      exact ⟨fun n => Graph.put n (place n), fun n => ⟨rfl, rfl, rfl⟩, nodes⟩
  | manual => exact ⟨id, fun n => ⟨rfl, rfl, rfl⟩, (List.map_id _).symm⟩

/-- A graph that shows values of JSON has a diagram with its nodes and edges. -/
theorem exists_ofGraph (json : ∀ n ∈ g.nodes, n.spec.InJson) (s : Spacing Float)
    (algorithm : Algorithm) :
    ∃ d, ofGraph s algorithm.name g = .ok d ∧ d.nodes.map Shape.id = g.ids ∧ d.edges = g.edges := by
  obtain ⟨move, keeps, nodes⟩ := exists_arranged s g algorithm
  have moved : ∀ n ∈ g.nodes.map move, n.spec.InJson :=
    List.forall_mem_map.mpr fun n member => (keeps n).spec ▸ json n member
  obtain ⟨shown, drawn, ids⟩ := exists_shapes moved
  have made : ofGraph s algorithm.name g = .ok ⟨shown, g.edges, g.entry, g.exits, algorithm⟩ := by
    simp only [ofGraph, chosenAlgorithm_name, bind, Except.bind, nodes, drawn]
  refine ⟨_, made, ?_, rfl⟩
  rw [ids, List.map_map]
  exact List.map_congr_left fun n _ => (keeps n).id

theorem ofFlow_of_graph {s : Spacing Float} {layout : String} {expanded : Bool} {flow : Flow}
    (made : (if expanded then Graph.ofFlow flow else Graph.ofFlowFlat flow) = .ok g) :
    ofFlow s layout expanded flow = ofGraph s layout g := by
  rw [ofFlow, made]
  rfl

theorem ofSource_of_flow {s : Spacing Float} {layout : String} {expanded : Bool}
    {text language : Value} {flow : Flow} (read : Flow.ofSource text language = .ok flow) :
    ofSource s layout expanded text language = ofFlow s layout expanded flow := by
  rw [ofSource, read]
  rfl

/-! ## Every JSON text -/

theorem inJson_of_document? {text : String} {v : Value}
    (found : document? text (some .json) = some v) : v.InJson := by
  rw [document?] at found
  split at found
  · contradiction
  · rw [load] at found
    cases read : Json.read text.toList with
    | ok w =>
        rw [read] at found
        obtain rfl := Option.some.inj found
        exact Json.inJson_of_read read
    | error offset =>
        rw [read] at found
        contradiction

theorem inJson_empty : Flow.InJson .empty :=
  .intro fieldsInJson_nil (fun _ member => absurd member List.not_mem_nil)
    fun _ member => absurd member List.not_mem_nil

theorem keyed_empty : Flow.Keyed .empty :=
  .intro List.nodup_nil fun _ member => absurd member List.not_mem_nil

/-- The flow of a JSON text holds values of JSON, and each scope has each of its keys once. -/
theorem describedFlow_json (text : String) :
    Flow.InJson (describedFlow text (some .json)) ∧
      Flow.Keyed (describedFlow text (some .json)) := by
  rw [describedFlow]
  cases found : (document? text (some .json)).bind Flow.ofValue? with
  | none => exact ⟨inJson_empty, keyed_empty⟩
  | some flow =>
      obtain ⟨v, document, described⟩ := Option.bind_eq_some_iff.mp found
      have json := inJson_of_document? document
      exact ⟨Flow.inJson_of_ofValue? json described, Flow.keyed_of_ofValue? described⟩

theorem ofSource_json_of_parse {text : String} {flow : Flow}
    (parsed : Flow.parse text (some .json) = .ok flow) :
    Flow.ofSource (.str text) (.str "json") = .ok flow := by
  have known : chosenLanguage (.str "json") = .ok (some .json) := rfl
  rw [ofSource_eq_parse text known, parsed]
  rfl

theorem exists_graph (expanded : Bool) {flow : Flow} (json : Flow.InJson flow)
    (keyed : flow.entries.names.Nodup) :
    ∃ g, (if expanded then Graph.ofFlow flow else Graph.ofFlowFlat flow) = .ok g ∧ g.Drawable ∧
      (expanded = false → ∀ n ∈ g.nodes, flow.entries.get? n.id = some n.spec) := by
  cases expanded with
  | true =>
      obtain ⟨g, made, drawable⟩ := Graph.exists_ofFlow_of_inJson json
      exact ⟨g, made, drawable, nofun⟩
  | false =>
      obtain ⟨g, made, drawable, entry⟩ := Graph.exists_ofFlowFlat_of_inJson json keyed
      exact ⟨g, made, drawable, fun _ => entry⟩

/-- A text with an integer of too many digits has no diagram. -/
theorem ofSource_of_longInteger (s : Spacing Float) (layout : String) (expanded : Bool)
    {text : String} {digits : Nat} (read : Json.read text.toList = .error (.longInteger digits)) :
    ofSource s layout expanded (.str text) (.str "json") =
      .error (.source (.unread (.json (.longInteger digits)))) := by
  have reported : Flow.parse text (some .json) = .error (.json (.longInteger digits)) :=
    parse_of_longInteger (by decide) read
  rw [ofSource, ofSource_eq_parse text rfl, reported]
  rfl

/-- Every text that is read as JSON has a diagram, with the scopes inside its nodes or without,
in each layout and with any distances, if no integer in it has too many digits. On the way each
key of a scope has its ports, each node of the collapsed view its entry, and the layout finds all
that it looks up. Too many digits are reported. -/
theorem ofSource_json (s : Spacing Float) (algorithm : Algorithm) (expanded : Bool)
    {text : String} (covered : Covered text (some .json)) :
    (∀ digits, Json.read text.toList = .error (.longInteger digits) →
      Number.mostDigits < digits ∧
        ofSource s algorithm.name expanded (.str text) (.str "json") =
          .error (.source (.unread (.json (.longInteger digits))))) ∧
    ((∀ digits, Json.read text.toList ≠ .error (.longInteger digits)) →
      ∃ flow g d,
        Flow.ofSource (.str text) (.str "json") = .ok flow ∧
        (if expanded then Graph.ofFlow flow else Graph.ofFlowFlat flow) = .ok g ∧
        ofSource s algorithm.name expanded (.str text) (.str "json") = .ok d ∧
        (d.nodes.map Shape.id = g.ids ∧ d.edges = g.edges) ∧
        (∀ specs, Graph.Ported specs) ∧
        (expanded = false → ∀ n ∈ g.nodes, flow.entries.get? n.id = some n.spec) ∧
        g.Placeable s) := by
  constructor
  · exact fun digits read => ⟨Json.mostDigits_lt_of_read read,
      ofSource_of_longInteger s algorithm.name expanded read⟩
  · intro short
    obtain ⟨json, keyed⟩ := describedFlow_json text
    have defined := ofSource_json_of_parse (parse_of_short covered (by simp [ReadAsYaml]) short)
    obtain ⟨g, made, drawable, entry⟩ := exists_graph expanded json keyed.distinct
    obtain ⟨d, drawn, shown⟩ := exists_ofGraph drawable.inJson s algorithm
    refine ⟨_, g, d, defined, made, ?_, shown, Graph.ported, entry,
      Graph.placeable_of_nodup drawable.distinct s⟩
    rw [ofSource_of_flow defined, ofFlow_of_graph made, drawn]

/-- The text whose edges are one integer of 4301 digits has no diagram in the customary layout. -/
theorem ofSource_numberedEdge :
    ofSource Settings.customary.spacing "hierarchical" true
        (.str (Json.numberedEdge (List.replicate 4300 '1'))) (.str "json") =
      .error (.source (.unread (.json (.longInteger 4301)))) :=
  ofSource_of_longInteger _ _ _ (Json.read_ones Nat.le.refl)

/-- A text with a scope inside its only node. -/
def oneScope : String :=
  "\x7b\"nodes\": \x7b\"s\": \x7b\"kind\": \"subflow\", " ++
    "\"subflow\": \x7b\"nodes\": \x7b\"x\": \x7b\x7d\x7d\x7d\x7d\x7d\x7d"

/-- The flow that it describes. -/
def oneScopeFlow : Flow where
  nodes := .given [("s", {
    subflow := .given { nodes := .given [("x", {})] }
    others := [("kind", .str "subflow")] })]

theorem read_oneScope :
    Json.read oneScope.toList = .ok (.map [(.str "nodes", .map [(.str "s", .map
      [(.str "kind", .str "subflow"),
        (.str "subflow", .map [(.str "nodes", .map [(.str "x", .map [])])])])])]) := by
  cbv

theorem covered_oneScope : Covered oneScope (some .json) :=
  .document ⟨load_of_read (by decide) read_oneScope, by decide⟩

theorem parse_oneScope : Flow.parse oneScope (some .json) = .ok oneScopeFlow :=
  parse_of_described (by decide) read_oneScope rfl

/-- The collapsed view of the text shows its node with the whole entry, in its place. -/
theorem ofSource_json_oneScope :
    ∃ g d, Graph.ofFlowFlat oneScopeFlow = .ok g ∧
      ofSource Settings.customary.spacing "hierarchical" false (.str oneScope) (.str "json") =
        .ok d ∧
      d.nodes.map Shape.id = ["s"] ∧
      (∀ n ∈ g.nodes, oneScopeFlow.entries.get? n.id = some n.spec) ∧
      Complete (children g.items none) (childArcs g.items g.arcs none) := by
  have short : ∀ digits, Json.read oneScope.toList ≠ .error (.longInteger digits) := by
    simp [read_oneScope]
  obtain ⟨-, shown⟩ := ofSource_json Settings.customary.spacing .hierarchical false covered_oneScope
  obtain ⟨flow, g, d, defined, made, drawn, ⟨ids, -⟩, -, entry, placeable⟩ := shown short
  obtain rfl : oneScopeFlow = flow :=
    Except.ok.inj ((ofSource_json_of_parse parse_oneScope).symm.trans defined)
  have shown : (Graph.ofFlowFlat oneScopeFlow).map (fun g => (g.ids, children g.items none)) =
      .ok (["s"], ["s"]) := by
    decide +kernel
  rw [if_neg Bool.false_ne_true] at made
  rw [made] at shown
  obtain ⟨known, outermost⟩ := Prod.mk.inj (Except.ok.inj shown)
  refine ⟨g, d, made, drawn, ids.trans known, entry rfl, placeable.containers none ?_⟩
  rw [outermost]
  exact List.cons_ne_nil _ _

end Diagram

end FlowDiagram
