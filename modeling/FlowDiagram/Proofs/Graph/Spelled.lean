import FlowDiagram.Proofs.Definition.Acceptance
import FlowDiagram.Proofs.Diagram.Rendering
import FlowDiagram.Proofs.Transition.Spelled
/-!
# Implied and explicit transitions give one graph

A document in which the transitions of scopes are spelled out as edges has the graph that the
document without these edges has (`ofFlow_spelled`). The nodes differ in the scope that they
hold and in nothing else, and everything beside the nodes is the same.

The expansion of a flow is followed step by step: a scope claims identifiers by its keys alone,
and its transitions, which decide the rest, are the same.
-/

namespace FlowDiagram.Graph

open Document Definition Transition Json

section

variable (chosen : Flow → Bool)

/-- A node whose scope is spelled out. -/
def Node.spelled (n : Node) : Node := { n with spec := NodeSpec.spelled chosen n.spec }

/-- The same graph with the scopes of its nodes spelled out. -/
def spelled (g : Graph) : Graph := { g with nodes := g.nodes.map (Node.spelled chosen) }

def Emitted.spelled (emitted : Emitted) : Emitted :=
  { emitted with nodes := emitted.nodes.map (Node.spelled chosen) }

end

variable {chosen : Flow → Bool} {within id : String} {parent : Option String}
variable {taken taken' : List String} {specs : List (String × NodeSpec)} {emitted : Emitted}
variable {flow : Flow} {g : Graph}

theorem Emitted.spelled_append (a b : Emitted) :
    (a.append b).spelled chosen = (a.spelled chosen).append (b.spelled chosen) := by
  rw [Emitted.spelled, Emitted.append, List.map_append]
  rfl

/-- A pass over nodes that are spelled out emits what the pass over these nodes does. -/
theorem Emits.spelled (run : Emits within parent taken specs emitted taken') :
    Emits within parent taken (spelledEach chosen specs) (emitted.spelled chosen) taken' := by
  induction run with
  | nil => exact .nil
  | @plain within key parent taken taken' spec rest others closed after ih =>
      rw [Emitted.spelled_append]
      exact .plain ((embedded?_spelled spec).trans (congrArg _ closed)) ih
  | @group within id key parent taken between taken' spec body inner ts rest others claimed embeds
      inside derived after ihInside ihAfter =>
      rw [Emitted.spelled_append]
      rw [← entries_spelled] at ihInside
      have again := Emits.group claimed ((embedded?_spelled spec).trans (congrArg _ embeds))
        ihInside (ofScope_spelled derived) ihAfter
      rw [start_spelled] at again
      exact again

theorem markStart_spelled (id : String) (nodes : List Node) :
    markStart id (nodes.map (Node.spelled chosen)) =
      (markStart id nodes).map (Node.spelled chosen) := by
  induction nodes with
  | nil => rfl
  | cons n rest ih =>
      rw [List.map_cons, markStart, markStart, ih]
      change (if n.id = id then _ else _) = _
      split <;> rfl

theorem expand_spelled (expanded : expand within parent taken flow = .ok (g, taken')) :
    expand within parent taken (Flow.spelled chosen flow) = .ok (g.spelled chosen, taken') := by
  obtain ⟨emitted, ts, run, derived, rfl⟩ := expand_eq_ok_iff.mp expanded
  refine expand_eq_ok_iff.mpr ⟨emitted.spelled chosen, ts, ?_, ofScope_spelled derived, ?_⟩
  · rw [entries_spelled]
    exact run.spelled
  · rw [start_spelled]
    rfl

theorem ofFlow_eq_ok_spelled (made : ofFlow flow = .ok g) :
    ofFlow (Flow.spelled chosen flow) = .ok (g.spelled chosen) := by
  obtain ⟨⟨inner, taken⟩, expanded, made⟩ := bind_eq_ok_iff.mp made
  change (expand "" none [] (Flow.spelled chosen flow)).bind _ = _
  rw [expand_spelled expanded]
  have entry : (inner.spelled chosen).entry = inner.entry := rfl
  dsimp only at made
  simp only [Except.bind, entry]
  cases way : nonEmpty inner.entry with
  | none =>
      rw [way] at made
      cases made
      rfl
  | some id =>
      rw [way] at made
      cases made
      exact congrArg (fun nodes => Except.ok { inner with nodes })
        (markStart_spelled id inner.nodes)

/-- A JSON document with a flow, and the document in which the transitions of any chosen scopes
without edges are spelled out, give one graph. The two differ in the scopes that their nodes hold,
and where all scopes are chosen, no scope of the second one is without edges. -/
theorem ofFlow_spelled {text : String} {language : Option Language} {v : Value} {flow : Flow}
    (json : language ≠ some .yaml) (read : Json.read text.toList = .ok v)
    (described : Flow.ofValue? v = some flow) (chosen : Flow → Bool) :
    ∃ g flow', Flow.parse text language = .ok flow ∧ ofFlow flow = .ok g ∧
      Flow.ofValue? (Document.spelled chosen v) = some flow' ∧
      (∀ text', Json.read text'.toList = .ok (Document.spelled chosen v) →
        Flow.parse text' language = .ok flow') ∧
      ((∀ scope, chosen scope = true) → Flow.Explicit flow') ∧
      ofFlow flow' = .ok { g with nodes := g.nodes.map (Node.spelled chosen) } := by
  obtain ⟨g, made, -⟩ :=
    exists_ofFlow_of_inJson (Flow.inJson_of_ofValue? (Json.inJson_of_read read) described)
  have again : Flow.ofValue? (Document.spelled chosen v) = some (Flow.spelled chosen flow) := by
    rw [ofValue?_spelled, described, Option.map_some]
  refine ⟨g, Flow.spelled chosen flow, parse_of_described json read described, made, again, ?_,
    fun all => Flow.explicit_spelled all flow, ofFlow_eq_ok_spelled made⟩
  exact fun text' read' => parse_of_described json read' again

/-- A text with a choice that leads into a scope, where a map has an empty label. -/
def branched : String :=
  "\x7b\"nodes\": \x7b" ++
    "\"a\": \x7b\"kind\": \"choice\", " ++
      "\"choice_cases\": [\x7b\"cond_eq\": \"x\", \"action\": \"s\"\x7d]\x7d, " ++
    "\"s\": \x7b\"kind\": \"subflow\", \"subflow\": \x7b\"nodes\": \x7b" ++
      "\"x\": \x7b\"post\": \x7b\"action_map\": \x7b\"\": \"y\"\x7d\x7d\x7d, " ++
      "\"y\": \x7b\x7d\x7d\x7d\x7d\x7d\x7d"

/-- The same text with the edges of both scopes. -/
def branchedEdges : String :=
  "\x7b\"nodes\": \x7b" ++
    "\"a\": \x7b\"kind\": \"choice\", " ++
      "\"choice_cases\": [\x7b\"cond_eq\": \"x\", \"action\": \"s\"\x7d]\x7d, " ++
    "\"s\": \x7b\"kind\": \"subflow\", \"subflow\": \x7b\"nodes\": \x7b" ++
      "\"x\": \x7b\"post\": \x7b\"action_map\": \x7b\"\": \"y\"\x7d\x7d\x7d, " ++
      "\"y\": \x7b\x7d\x7d, " ++
      "\"edges\": [\x7b\"from\": \"x\", \"to\": \"y\", \"action\": \"\"\x7d]\x7d\x7d\x7d, " ++
    "\"edges\": [\x7b\"from\": \"a\", \"to\": \"s\", \"action\": \"== x\"\x7d]\x7d"

def branchedDocument : Value :=
  .record [("nodes", .record [
    ("a", .record [("kind", .str "choice"),
      ("choice_cases", .seq [.record [("cond_eq", .str "x"), ("action", .str "s")]])]),
    ("s", .record [("kind", .str "subflow"), ("subflow", .record [("nodes", .record [
      ("x", .record [("post", .record [("action_map", .record [("", .str "y")])])]),
      ("y", .map [])])])])])]

def branchedEdgesDocument : Value :=
  .record [("nodes", .record [
      ("a", .record [("kind", .str "choice"),
        ("choice_cases", .seq [.record [("cond_eq", .str "x"), ("action", .str "s")]])]),
      ("s", .record [("kind", .str "subflow"), ("subflow", .record [
        ("nodes", .record [
          ("x", .record [("post", .record [("action_map", .record [("", .str "y")])])]),
          ("y", .map [])]),
        ("edges", .seq [.record [("from", .str "x"), ("to", .str "y"), ("action", .str "")]])])])]),
    ("edges", .seq [.record [("from", .str "a"), ("to", .str "s"), ("action", .str "== x")]])]

theorem read_branched : Json.read branched.toList = .ok branchedDocument := by cbv

set_option maxRecDepth 4000 in
theorem read_branchedEdges : Json.read branchedEdges.toList = .ok branchedEdgesDocument := by cbv

theorem spelled_branchedDocument :
    Document.spelled (fun _ => true) branchedDocument = branchedEdgesDocument := rfl

/-- Both texts define a flow, and both flows have the graph with these edges. -/
theorem ofFlow_spelled_branched :
    ∃ flow flow' g g', Flow.parse branched none = .ok flow ∧
      Flow.parse branchedEdges none = .ok flow' ∧ ofFlow flow = .ok g ∧ ofFlow flow' = .ok g' ∧
      isExplicit flow = false ∧ Flow.Explicit flow' ∧ g'.ids = g.ids ∧ g'.edges = g.edges ∧
      g.edges =
        [⟨"s_x-s_y-default", "s_x", "s_y", some ""⟩, ⟨"a-s-== x", "a", "s", some "== x"⟩] := by
  have json : (none : Option Language) ≠ some .yaml := nofun
  have edges : (Flow.ofValue? branchedDocument).map (fun flow => (ofFlow flow).map Graph.edges) =
      some (.ok [⟨"s_x-s_y-default", "s_x", "s_y", some ""⟩,
        ⟨"a-s-== x", "a", "s", some "== x"⟩]) := by
    decide +kernel
  obtain ⟨flow, described⟩ : ∃ flow, Flow.ofValue? branchedDocument = some flow := ⟨_, rfl⟩
  obtain ⟨g, flow', parsed, made, -, again, explicit, same⟩ :=
    ofFlow_spelled json read_branched described fun _ => true
  rw [spelled_branchedDocument] at again
  refine ⟨flow, flow', g, _, parsed, again _ read_branchedEdges, made, same, ?_,
    explicit fun _ => rfl, List.map_map, rfl, ?_⟩
  · cases described
    rfl
  · rw [described, Option.map_some, made] at edges
    exact Except.ok.inj (Option.some.inj edges)

end FlowDiagram.Graph
