import FlowDiagram.Transition.Basic
import FlowDiagram.Proofs.Definition.Leniency
/-!
# Transitions spelled out

Where a scope has no `edges`, its nodes imply its transitions. The same transitions can be
written down as its edges. `Flow.spelled` does this in a flow, and `Document.spelled` in a
document, for a choice among the scopes that are embedded one in the other; a scope that has
edges keeps them.

Reading a document in which transitions are spelled out gives the flow in which they are spelled
out (`ofValue?_spelled`). Each of the two follows the recursion of the reader, so the proof has
one law for each of its functions. A scope in which transitions are spelled out has the
transitions that it had (`ofScope_spelled`).
-/

namespace FlowDiagram

open Document Definition Json

namespace Transition

/-- The transitions of a scope. A scope has none if one of their labels cannot be written. -/
def transitions (scope : Flow) : List Transition :=
  match ofScope scope with
  | .ok ts => ts
  | .error _ => []

/-- A transition as an explicit edge. -/
def edgeEntry (t : Transition) : EdgeEntry where
  source := .ofOption t.source
  target := .ofOption t.target
  action := .ofOption t.action

/-- A transition as an item of the edges in a document. -/
def item (t : Transition) : Value :=
  .record [("from", .optional t.source), ("to", .optional t.target), ("action", .optional t.action)]

@[simp] theorem ofEdge_edgeEntry (t : Transition) : ofEdge t.edgeEntry = t := by
  simp [ofEdge, edgeEntry]

theorem reference?_optional (r : Option String) : reference? (.optional r) = r := by
  cases r <;> rfl

theorem ofValue_item (t : Transition) : EdgeEntry.ofValue t.item = t.edgeEntry := by
  have field (r : Option String) : referenceField (.optional r) = .ofOption r :=
    congrArg Slot.ofOption (reference?_optional r)
  simp only [edgeEntry, ← field]
  rfl

theorem edgesField?_items (ts : List Transition) :
    edgesField? (.seq (ts.map item)) = some (.given (ts.map edgeEntry)) := by
  have maps : (ts.map item).filter Value.isMap = ts.map item :=
    List.filter_eq_self.mpr (List.forall_mem_map.mpr fun _ _ => rfl)
  rw [edgesField?, maps, List.map_map]
  exact congrArg (some ∘ Slot.given) (List.map_congr_left fun t _ => ofValue_item t)

end Transition

open Transition

/-! ## In a flow -/

/-- A scope has no edges and is among those that are to be spelled out. -/
def spellable (chosen : Flow → Bool) (scope : Flow) : Bool := !isExplicit scope && chosen scope

/-- The edges of a scope in which transitions are spelled out. -/
def spelledEdges (chosen : Flow → Bool) (scope : Flow) : Slot (List EdgeEntry) :=
  if spellable chosen scope then .given ((transitions scope).map edgeEntry) else scope.edges

section

variable (chosen : Flow → Bool)

mutual

/-- A flow in which the transitions of scopes are spelled out. -/
def Flow.spelled : Scope NodeSpec → Scope NodeSpec
  | ⟨start, nodes, edges, others⟩ =>
    ⟨start, spelledNodes nodes, spelledEdges chosen ⟨start, nodes, edges, others⟩, others⟩
termination_by structural flow => flow

def spelledNodes : Slot (List (String × NodeSpec)) → Slot (List (String × NodeSpec))
  | .given specs => .given (spelledEach specs)
  | .absent => .absent
  | .dropped => .dropped
termination_by structural nodes => nodes

def spelledEach : List (String × NodeSpec) → List (String × NodeSpec)
  | [] => []
  | (key, spec) :: rest => (key, NodeSpec.spelled spec) :: spelledEach rest
termination_by structural specs => specs

/-- A node with the scope that it embeds spelled out. -/
def NodeSpec.spelled : NodeSpec → NodeSpec
  | ⟨post, cases, defaultAction, subflow, others⟩ =>
    ⟨post, cases, defaultAction,
      if (NodeSpec.mk post cases defaultAction subflow others).kind = .subflow then
        spelledBody subflow
      else subflow, others⟩
termination_by structural spec => spec

def spelledBody : Slot (Scope NodeSpec) → Slot (Scope NodeSpec)
  | .given scope => .given (Flow.spelled scope)
  | .absent => .absent
  | .dropped => .dropped
termination_by structural body => body

end

/-! ## In a document -/

/-- The fields of a scope, after a change that keeps its edges, with its transitions as its edges
if they are to be spelled out. -/
def spelledFields (es changed : List (Value × Value)) : List (Value × Value) :=
  match scopeOf? es with
  | some scope =>
    if spellable chosen scope then
      Value.put (.str "edges") (.seq ((transitions scope).map item)) changed
    else changed
  | none => changed

namespace Document

mutual

/-- A document in which the transitions of scopes are spelled out. -/
def spelled : Value → Value
  | .map es => .map (spelledFields chosen es (nodesFieldSpelled es))
  | v => v
termination_by structural v => v

def nodesFieldSpelled : List (Value × Value) → List (Value × Value)
  | [] => []
  | (k, v) :: rest =>
    (k, if k.sameKey (.str "nodes") then nodesSpelled v else v) :: nodesFieldSpelled rest
termination_by structural es => es

def nodesSpelled : Value → Value
  | .map ns => .map (entriesSpelled ns)
  | v => v
termination_by structural v => v

def entriesSpelled : List (Value × Value) → List (Value × Value)
  | [] => []
  | (k, v) :: rest => (k, nodeSpelled v) :: entriesSpelled rest
termination_by structural ns => ns

/-- A node with the scope that it embeds spelled out. -/
def nodeSpelled : Value → Value
  | .map es =>
    .map (if NodeKind.ofValue (((Value.map es).get? "kind").getD .null) = .subflow then
      subflowFieldSpelled es else es)
  | v => v
termination_by structural v => v

def subflowFieldSpelled : List (Value × Value) → List (Value × Value)
  | [] => []
  | (k, v) :: rest =>
    (k, if k.sameKey (.str "subflow") then spelled v else v) :: subflowFieldSpelled rest
termination_by structural es => es

end

end Document

/-! ## Reading what is spelled out -/

variable {chosen}

theorem Flow.spelled_eq (flow : Flow) :
    Flow.spelled chosen flow =
      { flow with
        nodes := spelledNodes chosen flow.nodes
        edges := spelledEdges chosen flow } := by
  cases flow
  rfl

@[simp] theorem start_spelled (flow : Flow) : (Flow.spelled chosen flow).start = flow.start := by
  rw [Flow.spelled_eq]

section

variable {spec : NodeSpec}

theorem NodeSpec.spelled_of_subflow (embeds : spec.kind = .subflow) :
    NodeSpec.spelled chosen spec = { spec with subflow := spelledBody chosen spec.subflow } := by
  cases spec
  rw [NodeSpec.spelled, if_pos embeds]

/-- Only nodes of kind `subflow` embed a scope. -/
theorem NodeSpec.spelled_of_ne (other : spec.kind ≠ .subflow) :
    NodeSpec.spelled chosen spec = spec := by
  cases spec
  rw [NodeSpec.spelled, if_neg other]

end

theorem spelledEach_eq (specs : List (String × NodeSpec)) :
    spelledEach chosen specs = specs.map fun e => (e.1, NodeSpec.spelled chosen e.2) := by
  induction specs with
  | nil => rfl
  | cons e rest ih => rw [spelledEach, ih, List.map_cons]

theorem Entries.write_map {α β : Type} (f : α → β) (name : String) (a : α) (es : Entries α) :
    Entries.write name (f a) (es.map fun e => (e.1, f e.2)) =
      (Entries.write name a es).map fun e => (e.1, f e.2) := by
  induction es with
  | nil => rfl
  | cons e rest ih =>
      obtain ⟨n, v⟩ := e
      rw [List.map_cons, Entries.write, Entries.write, ih]
      split <;> rfl

theorem Entries.ofList_map {α β : Type} (f : α → β) (list : List (String × α)) :
    Entries.ofList (list.map fun e => (e.1, f e.2)) =
      (Entries.ofList list).map fun e => (e.1, f e.2) := by
  induction list using List.reverseRecOn with
  | nil => rfl
  | append_singleton rest last ih =>
      obtain ⟨n, v⟩ := last
      rw [List.map_append, List.map_singleton, Entries.ofList_append_singleton, ih,
        Entries.write_map, Entries.ofList_append_singleton]

theorem accepted?_map {α β : Type} (f : α → β) (es : Entries (Option α)) :
    accepted? (es.map fun e => (e.1, e.2.map f)) =
      (accepted? es).map fun kept => kept.map fun e => (e.1, f e.2) := by
  induction es with
  | nil => rfl
  | cons e rest ih =>
      obtain ⟨k, _ | a⟩ := e
      · rfl
      · rw [List.map_cons, accepted?, Option.map_some, accepted?, ih, Option.map_map,
          Option.map_map]
        rfl

/-- The edges of a scope can be written again. -/
theorem scopeOf?_put {es : List (Value × Value)} {flow : Flow} {v : Value}
    {edges : Slot (List EdgeEntry)} (read : scopeOf? es = some flow)
    (listed : edgesField? v = some edges) :
    scopeOf? (Value.put (.str "edges") v es) = some { flow with edges } := by
  induction es generalizing flow with
  | nil =>
      cases read
      simp [Value.put, scopeOf?, listed]
  | cons e rest ih =>
      obtain ⟨k, w⟩ := e
      cases k with
      | str name =>
          rw [scopeOf?] at read
          obtain ⟨scope, others, read⟩ := Option.bind_eq_some_iff.mp read
          have same : (Value.str name).sameKey (.str "edges") = (name == "edges") := rfl
          rw [Value.put, same]
          by_cases here : name = "edges"
          · subst here
            obtain ⟨field, -, read⟩ := Option.bind_eq_some_iff.mp read
            cases read
            simp [scopeOf?, others, listed]
          · rw [beq_false_of_ne here, if_neg Bool.false_ne_true, scopeOf?, ih others]
            split at read
            · next start =>
                cases read
                simp [start]
            split at read
            · next start nodes =>
                obtain ⟨specs, found, read⟩ := Option.bind_eq_some_iff.mp read
                cases read
                simp [nodes, found]
            · next start nodes =>
                cases read
                simp [start, nodes, here]
      | _ => contradiction

/-- A field of a node that has no type is the field of its document. -/
theorem field_of_specOf? {es : List (Value × Value)} {spec : NodeSpec}
    (read : specOf? es = some spec) {name : String}
    (untyped : name ∉ ["post", "choice_cases", "default_action", "subflow"]) :
    spec.field name = ((Value.map es).get? name).getD .null := by
  obtain ⟨textual, -, -, -, rfl⟩ := specOf?_eq_some_iff.mp read
  suffices found :
      (fieldsBeside ["post", "choice_cases", "default_action", "subflow"] es).get? name =
        (Value.map es).get? name from congrArg (Option.getD · Value.null) found
  clear read
  induction es with
  | nil => rfl
  | cons e rest ih =>
      obtain ⟨k, v⟩ := e
      obtain ⟨⟨n, rfl⟩, others⟩ := textual_cons.mp textual
      rw [fieldsBeside_cons]
      by_cases same : name = n
      · subst same
        rw [if_neg untyped, Entries.get?_cons, if_pos rfl]
        simp [Value.get?]
      · have later : (Value.map ((.str n, v) :: rest)).get? name = (Value.map rest).get? name := by
          simp [Value.get?, Ne.symm same]
        rw [later, ← ih others]
        split
        · rfl
        · rw [Entries.get?_cons, if_neg same]

theorem subflowField?_spelled {v : Value}
    (scope : Flow.ofValue? (Document.spelled chosen v) =
      (Flow.ofValue? v).map (Flow.spelled chosen)) :
    subflowField? (Document.spelled chosen v) = (subflowField? v).map (spelledBody chosen) := by
  cases v with
  | map es =>
      have given := congrArg (Option.map Slot.given) scope
      rw [Option.map_map] at given
      change _ = ((scopeOf? es).map Slot.given).map (spelledBody chosen)
      rw [Option.map_map]
      exact given
  | _ => rfl

mutual

theorem ofValue?_spelled (v : Value) :
    Flow.ofValue? (Document.spelled chosen v) = (Flow.ofValue? v).map (Flow.spelled chosen) := by
  cases v with
  | map es =>
      have changed := scopeOf?_nodesFieldSpelled es
      simp only [Document.spelled, Flow.ofValue?, spelledFields]
      cases read : scopeOf? es with
      | none => simpa [read] using changed
      | some scope =>
          rw [read, Option.map_some] at changed
          dsimp only
          rw [Option.map_some, Flow.spelled_eq, spelledEdges]
          split
          · exact scopeOf?_put changed (edgesField?_items _)
          · exact changed
  | _ => rfl
termination_by structural v

theorem scopeOf?_nodesFieldSpelled (es : List (Value × Value)) :
    scopeOf? (Document.nodesFieldSpelled chosen es) =
      (scopeOf? es).map fun flow => { flow with nodes := spelledNodes chosen flow.nodes } := by
  match es with
  | [] => rfl
  | (k, v) :: rest =>
      cases k with
      | str name =>
          have same : (Value.str name).sameKey (.str "nodes") = (name == "nodes") := rfl
          rw [Document.nodesFieldSpelled, same, scopeOf?, scopeOf?, scopeOf?_nodesFieldSpelled rest]
          by_cases nodes : name = "nodes"
          · subst nodes
            have inside := nodes?_nodesSpelled v
            cases scopeOf? rest <;> cases read : nodes? v <;>
              simp [inside, read, spelledNodes]
          · rw [beq_false_of_ne nodes, if_neg Bool.false_ne_true]
            cases scopeOf? rest with
            | none => rfl
            | some scope =>
                by_cases start : name = "start"
                · simp [start]
                by_cases edges : name = "edges"
                · cases edgesField? v <;> simp [edges]
                · simp [start, nodes, edges]
      | _ => rfl
termination_by structural es

theorem nodes?_nodesSpelled (v : Value) :
    nodes? (Document.nodesSpelled chosen v) = (nodes? v).map (spelledEach chosen) := by
  cases v with
  | map ns =>
      rw [Document.nodesSpelled, nodes?, nodes?, nodeEntries_entriesSpelled ns, Entries.ofList_map,
        accepted?_map]
      exact congrArg (Option.map · _) (funext fun specs => (spelledEach_eq specs).symm)
  | _ => rfl
termination_by structural v

theorem nodeEntries_entriesSpelled (ns : List (Value × Value)) :
    nodeEntries (Document.entriesSpelled chosen ns) =
      (nodeEntries ns).map fun e => (e.1, e.2.map (NodeSpec.spelled chosen)) := by
  match ns with
  | [] => rfl
  | (k, v) :: rest =>
      rw [Document.entriesSpelled, nodeEntries, nodeEntries, List.map_cons, node?_nodeSpelled v,
        nodeEntries_entriesSpelled rest]
termination_by structural ns

theorem node?_nodeSpelled (v : Value) :
    node? (Document.nodeSpelled chosen v) = (node? v).map (NodeSpec.spelled chosen) := by
  cases v with
  | map es =>
      have inside := specOf?_subflowFieldSpelled es
      rw [Document.nodeSpelled, node?, node?]
      cases read : specOf? es with
      | none =>
          rw [read] at inside
          split
          · exact inside
          · exact read
      | some spec =>
          have kind : spec.kind = .ofValue (((Value.map es).get? "kind").getD .null) :=
            congrArg NodeKind.ofValue (field_of_specOf? read (by decide))
          rw [← kind, Option.map_some]
          split
          · next embeds => rw [inside, read, Option.map_some, NodeSpec.spelled_of_subflow embeds]
          · next other => rw [read, NodeSpec.spelled_of_ne other]
  | _ => rfl
termination_by structural v

theorem specOf?_subflowFieldSpelled (es : List (Value × Value)) :
    specOf? (Document.subflowFieldSpelled chosen es) =
      (specOf? es).map fun spec => { spec with subflow := spelledBody chosen spec.subflow } := by
  match es with
  | [] => rfl
  | (k, v) :: rest =>
      cases k with
      | str name =>
          have same : (Value.str name).sameKey (.str "subflow") = (name == "subflow") := rfl
          rw [Document.subflowFieldSpelled, same, specOf?, specOf?,
            specOf?_subflowFieldSpelled rest]
          by_cases subflow : name = "subflow"
          · subst subflow
            have inside := subflowField?_spelled (ofValue?_spelled v)
            cases specOf? rest <;> cases read : subflowField? v <;> simp [inside, read]
          · rw [beq_false_of_ne subflow, if_neg Bool.false_ne_true]
            cases specOf? rest with
            | none => rfl
            | some spec =>
                by_cases post : name = "post"
                · cases postField? v <;> simp [post]
                by_cases cases' : name = "choice_cases"
                · cases casesField? v <;> simp [cases']
                by_cases default : name = "default_action"
                · simp [default]
                · simp [post, cases', default, subflow]
      | _ => rfl
termination_by structural es

end

/-! ## Transitions of what is spelled out -/

section

variable {spec : NodeSpec} {flow : Flow} {ts : List Transition}

theorem kind_spelled (spec : NodeSpec) : (NodeSpec.spelled chosen spec).kind = spec.kind := by
  cases spec
  rfl

theorem value?_spelledBody (body : Slot Flow) :
    (spelledBody chosen body).value? = body.value?.map (Flow.spelled chosen) := by
  cases body <;> rfl

/-- A node embeds the scope that it embedded, spelled out. -/
theorem embedded?_spelled (spec : NodeSpec) :
    (NodeSpec.spelled chosen spec).embedded? = spec.embedded?.map (Flow.spelled chosen) := by
  rw [NodeSpec.embedded?, NodeSpec.embedded?, kind_spelled]
  split
  · next embeds => rw [NodeSpec.spelled_of_subflow embeds, value?_spelledBody]
  · rfl

theorem entries_spelled (flow : Flow) :
    (Flow.spelled chosen flow).entries = spelledEach chosen flow.entries := by
  obtain ⟨start, nodes, edges, others⟩ := flow
  cases nodes <;> rfl

/-- What a node implies does not depend on the scope that it embeds. -/
theorem ofNode_spelled (key : String) (spec : NodeSpec) :
    ofNode key (NodeSpec.spelled chosen spec) = ofNode key spec := by
  cases spec
  rfl

theorem implied_spelledEach (specs : List (String × NodeSpec)) :
    implied (spelledEach chosen specs) = implied specs := by
  induction specs with
  | nil => rfl
  | cons e rest ih =>
      obtain ⟨key, spec⟩ := e
      rw [spelledEach, implied, implied, ofNode_spelled, ih]

theorem transitions_of_ofScope (derived : ofScope flow = .ok ts) : transitions flow = ts := by
  rw [transitions, derived]

theorem ofScope_of_edges {edges : List EdgeEntry} (listed : flow.edges.value? = some edges) :
    ofScope flow = .ok (edges.map ofEdge) := by
  rw [ofScope, listed]

theorem ofScope_of_no_edges (unlisted : flow.edges.value? = none) :
    ofScope flow = implied flow.entries := by
  rw [ofScope, unlisted]

/-- A scope keeps its transitions, whether they are spelled out or not. -/
theorem ofScope_spelled (derived : ofScope flow = .ok ts) :
    ofScope (Flow.spelled chosen flow) = .ok ts := by
  have edges : (Flow.spelled chosen flow).edges = spelledEdges chosen flow := by
    rw [Flow.spelled_eq]
  by_cases out : spellable chosen flow
  · rw [spelledEdges, if_pos out, transitions_of_ofScope derived] at edges
    have same : (ts.map edgeEntry).map ofEdge = ts := by
      rw [List.map_map]
      exact List.map_id'' ofEdge_edgeEntry ts
    rw [ofScope_of_edges (congrArg Slot.value? edges), same]
  · rw [spelledEdges, if_neg out] at edges
    cases listed : flow.edges.value? with
    | some own => rw [ofScope_of_edges (edges ▸ listed), ← derived, ofScope_of_edges listed]
    | none =>
        rw [ofScope_of_no_edges (edges ▸ listed), entries_spelled, implied_spelledEach, ← derived,
          ofScope_of_no_edges listed]

end

/-! ## Flows with explicit edges -/

/-- A flow and all scopes embedded in it list their edges. -/
inductive Flow.Explicit : Flow → Prop where
  | intro {flow : Flow} (own : isExplicit flow = true)
      (inside : ∀ entry ∈ flow.entries, ∀ body, entry.2.embedded? = some body →
        Flow.Explicit body) : Flow.Explicit flow

theorem isExplicit_spelled (all : ∀ scope, chosen scope = true) (flow : Flow) :
    isExplicit (Flow.spelled chosen flow) = true := by
  rw [Flow.spelled_eq]
  change (spelledEdges chosen flow).value?.isSome = true
  rw [spelledEdges, spellable, all]
  cases listed : isExplicit flow with
  | true => exact listed
  | false => rfl

/-- Where all scopes are spelled out, no transition is implied any more. -/
theorem Flow.explicit_spelled (all : ∀ scope, chosen scope = true) (flow : Flow) :
    Flow.Explicit (Flow.spelled chosen flow) := by
  refine .intro (isExplicit_spelled all flow) ?_
  rw [entries_spelled]
  induction flow.entries using nestedInduction with
  | nil => exact fun entry member => absurd member List.not_mem_nil
  | plain key spec rest closed ih =>
      refine List.forall_mem_cons.mpr ⟨fun body embeds => ?_, ih⟩
      rw [embedded?_spelled, closed] at embeds
      contradiction
  | group key spec rest body embeds ihInside ihAfter =>
      refine List.forall_mem_cons.mpr ⟨fun body' embeds' => ?_, ihAfter⟩
      rw [embedded?_spelled, embeds] at embeds'
      cases embeds'
      exact .intro (isExplicit_spelled all body) (entries_spelled body ▸ ihInside)

end

end FlowDiagram
