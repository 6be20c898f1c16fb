import FlowDiagram.Proofs.Diagram.Rendering
import FlowDiagram.Proofs.Transition.Labels
/-!
# When flows can be expanded and drawn

Only the labels of cases can prevent the expansion of a flow, and only those that are needed for
its transitions (`exists_ofFlow_iff`). A diagram shows the labels of all cases; where each of them
has one, whatever else may be wrong with the flow or the layout, it is not a label
(`ofFlow_labelable`).

A flow that is read as JSON has all labels. One that is read as YAML lacks the label of a case
whose operand is, or contains, a date, a moment or bytes (`expansion_stops_at_date`).
-/

namespace FlowDiagram

open Document Definition Transition Json Layout

/-! ## Flows -/

section

variable {P Q : NodeSpec → Prop} {flow : Flow}

/-- Each node of a flow has some property, and so does each node of the scopes that it embeds. -/
inductive Throughout (P : NodeSpec → Prop) : Flow → Prop where
  | intro {flow : Flow} (own : ∀ entry ∈ flow.entries, P entry.2)
      (inside : ∀ entry ∈ flow.entries, ∀ body, entry.2.embedded? = some body →
        Throughout P body) : Throughout P flow

theorem Throughout.of_inJson (json : Flow.InJson flow) (each : ∀ spec, spec.OwnInJson → P spec) :
    Throughout P flow := by
  induction json with
  | intro others own inside ih =>
      refine .intro (fun entry listed => each entry.2 (own entry listed)) ?_
      intro entry listed body embeds
      exact ih body (Flow.mem_bodies.mpr ⟨entry, listed, NodeSpec.value?_of_embedded? embeds⟩)

/-- What the nodes are without the scopes that they embed they are also in the collapsed flow. -/
theorem Throughout.collapsed (throughout : Throughout P flow)
    (kept : ∀ spec, P spec → P (Graph.collapsed spec)) :
    Throughout P (Graph.collapsedFlow flow) := by
  obtain ⟨own, -⟩ := throughout
  refine .intro ?_ ?_
  · rw [Graph.entries_collapsedFlow]
    exact List.forall_mem_map.mpr fun entry listed => kept _ (own entry listed)
  · rw [Graph.entries_collapsedFlow]
    refine List.forall_mem_map.mpr fun entry listed body embeds => ?_
    rw [Graph.embedded?_collapsed] at embeds
    contradiction

namespace Graph

variable {within : String} {parent : Option String} {taken taken' : List String}
variable {specs : List (String × NodeSpec)} {emitted : Emitted} {g : Graph}

theorem Emits.throughout (run : Emits within parent taken specs emitted taken')
    (own : ∀ entry ∈ specs, P entry.2)
    (inside : ∀ entry ∈ specs, ∀ body, entry.2.embedded? = some body → Throughout P body) :
    ∀ n ∈ emitted.nodes, P n.spec := by
  induction run with
  | nil => exact fun n member => absurd member List.not_mem_nil
  | plain closed after ih =>
      obtain ⟨first, others⟩ := List.forall_mem_cons.mp own
      obtain ⟨-, deeper⟩ := List.forall_mem_cons.mp inside
      exact List.forall_mem_cons.mpr ⟨first, ih others deeper⟩
  | group claimed embeds within derived after ihInside ihAfter =>
      obtain ⟨first, others⟩ := List.forall_mem_cons.mp own
      obtain ⟨body, deeper⟩ := List.forall_mem_cons.mp inside
      obtain ⟨own', inside'⟩ := body _ embeds
      refine List.forall_mem_cons.mpr ⟨first, List.forall_mem_append.mpr ⟨?_, ?_⟩⟩
      · exact ihInside own' inside'
      · exact ihAfter others deeper

/-- The nodes of a graph are what the nodes of its flow are. -/
theorem throughout_of_ofFlow (throughout : Throughout P flow) (made : ofFlow flow = .ok g) :
    ∀ n ∈ g.nodes, P n.spec := by
  obtain ⟨inner, taken, expanded, like⟩ := exists_expand_of_ofFlow made
  obtain ⟨emitted, ts, run, -, rfl⟩ := expand_eq_ok_iff.mp expanded
  obtain ⟨own, inside⟩ := throughout
  intro n member
  have listed : n.bare ∈ emitted.nodes.map Node.bare := like.nodes ▸ List.mem_map_of_mem member
  obtain ⟨n', member', same⟩ := List.mem_map.mp listed
  have spec : n'.spec = n.spec := (congrArg Node.spec same :)
  exact spec ▸ run.throughout own inside n' member'

theorem throughout_of_ofFlowFlat (throughout : Throughout P flow)
    (kept : ∀ spec, P spec → P (Graph.collapsed spec)) (made : ofFlowFlat flow = .ok g) :
    ∀ n ∈ g.nodes, P n.spec := by
  rw [ofFlowFlat_eq] at made
  obtain ⟨g', collapsed, made⟩ := bind_eq_ok_iff.mp made
  cases made
  have each := throughout_of_ofFlow (throughout.collapsed kept) collapsed
  obtain ⟨own, -⟩ := throughout
  refine List.forall_mem_map.mpr fun n member => ?_
  rw [Node.restored]
  cases found : flow.entries.get? n.id with
  | none => exact each n member
  | some spec => exact own _ (Entries.mem_of_get? found)

/-! ## Expansion -/

/-- The transitions of a flow and of each scope that it embeds have the labels that they need. -/
inductive Labelled : Flow → Prop where
  | intro {flow : Flow} (own : isExplicit flow ∨ ∀ entry ∈ flow.entries, Branches entry.2)
      (inside : ∀ entry ∈ flow.entries, ∀ body, entry.2.embedded? = some body → Labelled body) :
      Labelled flow

theorem derivable_iff : Derivable flow ↔ Labelled flow := by
  constructor
  · intro derivable
    induction derivable with
    | intro own inside ih => exact .intro (exists_ofScope_iff.mp ⟨_, own⟩) ih
  · intro labelled
    induction labelled with
    | intro own inside ih =>
        obtain ⟨ts, derived⟩ := exists_ofScope_iff.mpr own
        exact .intro derived ih

/-- A flow can be expanded exactly if its transitions have the labels that they need. -/
theorem exists_ofFlow_iff : (∃ g, ofFlow flow = .ok g) ↔ Labelled flow := by
  rw [← derivable_iff, ← @exists_expand_iff "" none []]
  constructor
  · rintro ⟨g, made⟩
    obtain ⟨inner, taken, expanded, -⟩ := exists_expand_of_ofFlow made
    exact ⟨inner, taken, expanded⟩
  · rintro ⟨inner, taken, expanded⟩
    obtain ⟨g, made, -⟩ := exists_ofFlow expanded
    exact ⟨g, made⟩

theorem exists_ofFlowFlat_iff :
    (∃ g, ofFlowFlat flow = .ok g) ↔ isExplicit flow ∨ ∀ entry ∈ flow.entries, Branches entry.2 := by
  rw [ofFlowFlat_eq, ← exists_ofScope_iff, ← ofScope_collapsedFlow, exists_ofScope_iff]
  refine exists_map_iff.trans (exists_ofFlow_iff.trans ⟨fun labelled => ?_, fun own => ?_⟩)
  · cases labelled with
    | intro own inside => exact own
  · refine .intro own ?_
    rw [entries_collapsedFlow]
    refine List.forall_mem_map.mpr fun entry listed body embeds => ?_
    rw [embedded?_collapsed] at embeds
    contradiction

end Graph

end

/-! ## Translation -/

namespace Diagram

/-- All cases of a node have labels. -/
def Described (spec : NodeSpec) : Prop := ∀ c ∈ casesOf spec, Describable c

/-- A computation that does not stop for want of a label. -/
def Labelable {α : Type} (x : Except Fault α) : Prop := ∀ fault, x ≠ .error (.label fault)

section

variable {α β : Type}

theorem Labelable.ok (a : α) : Labelable (.ok a) := fun _ => nofun

theorem Labelable.bind {x : Except Fault α} {f : α → Except Fault β} (first : Labelable x)
    (next : ∀ a, Labelable (f a)) : Labelable (x.bind f) := by
  intro fault stopped
  cases x with
  | error e =>
      obtain rfl : e = .label fault := Except.error.inj stopped
      exact first fault rfl
  | ok a => exact next a fault stopped

theorem labelable_field (x : Except BadBytes α) : Labelable (x.mapError Fault.field) := by
  intro fault stopped
  cases x with
  | error e => cases stopped
  | ok a => cases stopped

variable {spec : NodeSpec} {flow : Flow} {nodes : List Graph.Node} {g : Graph}

theorem labelable_details (described : Described spec) : Labelable (details spec) := by
  unfold details
  split
  · exact (labelable_field _).bind fun _ => .ok _
  · obtain ⟨list, made⟩ := exists_caseLabels_iff.mpr described
    rw [choiceDetails, made]
    exact .ok _
  all_goals exact .ok _

theorem labelable_shapes (described : ∀ n ∈ nodes, Described n.spec) : Labelable (shapes nodes) := by
  induction nodes with
  | nil => exact .ok _
  | cons n rest ih =>
      obtain ⟨own, others⟩ := List.forall_mem_cons.mp described
      have shown : Labelable (shownData n) :=
        (labelable_field _).bind fun _ => (labelable_details own).bind fun _ => .ok _
      exact (shown.bind fun _ => .ok _).bind fun _ => (ih others).bind fun _ => .ok _

theorem labelable_ofGraph (s : Spacing Float) (layout : String)
    (described : ∀ n ∈ g.nodes, Described n.spec) : Labelable (ofGraph s layout g) := by
  have named : Labelable (chosenAlgorithm layout) := by
    rw [chosenAlgorithm]
    split
    · exact .ok _
    · exact fun _ => nofun
  refine named.bind fun algorithm => (labelable_shapes ?_).bind fun _ => .ok _
  cases algorithm with
  | hierarchical =>
      obtain ⟨place, moved⟩ := Graph.nodes_laidOut s g
      rw [arranged, moved]
      exact List.forall_mem_map.mpr described
  | manual => exact described

/-- A collapsed node has the cases that it had. -/
theorem Described.collapsed (described : Described spec) : Described (Graph.collapsed spec) := by
  rw [Graph.collapsed]
  split
  · exact described
  · exact described

theorem labelled_of_described (described : Throughout Described flow) : Graph.Labelled flow := by
  induction described with
  | intro own inside ih =>
      exact .intro (.inr fun entry listed _ c member _ => own entry listed c member) ih

theorem exists_graph_of_described (expanded : Bool) (described : Throughout Described flow) :
    ∃ g, (if expanded then Graph.ofFlow flow else Graph.ofFlowFlat flow) = .ok g ∧
      ∀ n ∈ g.nodes, Described n.spec := by
  have labelled := labelled_of_described described
  cases expanded with
  | true =>
      obtain ⟨g, made⟩ := Graph.exists_ofFlow_iff.mpr labelled
      exact ⟨g, made, Graph.throughout_of_ofFlow described made⟩
  | false =>
      obtain ⟨own, -⟩ := labelled
      obtain ⟨g, made⟩ := Graph.exists_ofFlowFlat_iff.mpr own
      exact ⟨g, made,
        Graph.throughout_of_ofFlowFlat described (fun _ => Described.collapsed) made⟩

/-- Where all cases have labels, no diagram is refused for a label. -/
theorem ofFlow_labelable (s : Spacing Float) (layout : String) (expanded : Bool)
    (described : Throughout Described flow) : Labelable (ofFlow s layout expanded flow) := by
  obtain ⟨g, made, each⟩ := exists_graph_of_described expanded described
  rw [ofFlow_of_graph made]
  exact labelable_ofGraph s layout each

end

/-! ## Sources -/

theorem describable_of_inJson {c : Case} (json : FieldsInJson c.others) : Describable c :=
  exists_caseLabel_iff.mp (exists_caseLabel json 0)

/-- All cases of a flow that is read as JSON have labels. -/
theorem described_of_json {text : String} {flow : Flow}
    (read : Flow.parse text (some .json) = .ok flow) :
    Flow.InJson flow ∧ flow.entries.names.Nodup ∧ Throughout Described flow := by
  obtain ⟨json, keyed⟩ := describedFlow_json text
  obtain same | ⟨fault, reports⟩ := parse_cases text (some .json)
  · obtain rfl := Except.ok.inj (same.symm.trans read)
    refine ⟨json, keyed.distinct, .of_inJson json fun spec own c member => ?_⟩
    exact describable_of_inJson (own.getD_cases c member)
  · rw [parse_of_reports reports] at read
    contradiction

/-- A case has a label, which is not empty, exactly if the operands that it shows have a form in
JSON; its number must not have too many digits, as it may be in the label. Transitions and graphs
exist exactly if the cases that lead on have labels, the list of all labels exactly if each case has
one, and then no diagram is refused for a label. For a flow of a covered text that is read as JSON
all of this holds, and it has a diagram. -/
theorem labels_exist_iff (flow : Flow) (s : Spacing Float) (expanded : Bool) :
    (∀ c index, Number.isShort (index + 1) = true →
      ((∃ label, caseLabel c index = .ok label) ↔ Describable c) ∧
        ∀ label, caseLabel c index = .ok label → label ≠ "") ∧
    (∀ key spec, ((∃ list, caseLabels spec = .ok list) ↔ Described spec) ∧
      ((∃ ts, ofNode key spec = .ok ts) ↔ Branches spec)) ∧
    ((∃ g, Graph.ofFlow flow = .ok g) ↔ Graph.Labelled flow) ∧
    ((∃ g, Graph.ofFlowFlat flow = .ok g) ↔
      isExplicit flow ∨ ∀ entry ∈ flow.entries, Branches entry.2) ∧
    (Throughout Described flow → ∀ layout, Labelable (ofFlow s layout expanded flow)) ∧
    (∀ text, Covered text (some .json) → Flow.parse text (some .json) = .ok flow →
      Throughout Described flow ∧
        ∀ algorithm : Algorithm, ∃ d, ofFlow s algorithm.name expanded flow = .ok d) := by
  refine ⟨fun c index _ => ⟨exists_caseLabel_iff, fun label => caseLabel_ne_empty⟩,
    fun key spec => ⟨exists_caseLabels_iff, exists_ofNode_iff⟩, Graph.exists_ofFlow_iff,
    Graph.exists_ofFlowFlat_iff, fun described layout => ofFlow_labelable s layout expanded described,
    fun text _ read => ?_⟩
  obtain ⟨json, keyed, described⟩ := described_of_json read
  refine ⟨described, fun algorithm => ?_⟩
  obtain ⟨g, made, drawable, -⟩ := exists_graph expanded json keyed
  obtain ⟨d, drawn, -⟩ := exists_ofGraph drawable.inJson s algorithm
  exact ⟨d, (ofFlow_of_graph made).trans drawn⟩

/-- A text with a case that compares with a text. -/
def comparingText : String :=
  "\x7b\"nodes\": \x7b\"a\": \x7b\"kind\": \"choice\", " ++
    "\"choice_cases\": [\x7b\"cond_eq\": \"x\"\x7d]\x7d\x7d\x7d"

def comparing : Case where
  others := [("cond_eq", .str "x")]

/-- The flow that it describes. -/
def comparingFlow : Flow where
  nodes := .given [("a", { cases := .given [comparing], others := [("kind", .str "choice")] })]

theorem read_comparingText :
    Json.read comparingText.toList = .ok (.map [(.str "nodes", .map [(.str "a", .map
      [(.str "kind", .str "choice"),
        (.str "choice_cases", .seq [.map [(.str "cond_eq", .str "x")]])])])]) := by
  cbv

/-- The case of the text has a label, and the flow of the text has a diagram. -/
theorem labels_exist_iff_comparing :
    Covered comparingText (some .json) ∧
      Flow.parse comparingText (some .json) = .ok comparingFlow ∧
      (∃ label, caseLabel comparing 0 = .ok label) ∧ Throughout Described comparingFlow ∧
      ∃ d, ofFlow Settings.customary.spacing "hierarchical" true comparingFlow = .ok d := by
  have covered : Covered comparingText (some .json) :=
    .document ⟨load_of_read (by decide) read_comparingText, by decide⟩
  have parsed : Flow.parse comparingText (some .json) = .ok comparingFlow :=
    parse_of_described (by decide) read_comparingText rfl
  obtain ⟨cases, -, -, -, -, texts⟩ := labels_exist_iff comparingFlow Settings.customary.spacing true
  obtain ⟨described, drawn⟩ := texts comparingText covered parsed
  obtain ⟨labelled, -⟩ := cases comparing 0 (by decide)
  have shown : Describable comparing := List.forall_mem_singleton.mpr (.str "x")
  exact ⟨covered, parsed, labelled.mpr shown, described, drawn .hierarchical⟩

/-- A flow with a case that compares with a date. -/
def datedCase : String :=
  "nodes: \x7ba: \x7bkind: choice, choice_cases: [\x7bcond_eq: 2024-01-02, action: a\x7d]\x7d\x7d"

/-- The flow is read, and it cannot be expanded: the case has no label. -/
theorem expansion_stops_at_date :
    ∃ flow, Flow.parse datedCase (some .yaml) = .ok flow ∧
      Graph.ofFlow flow = .error (.value .date) ∧
      ∃ entry ∈ flow.entries, ∃ c ∈ casesOf entry.2, caseLabel c 0 = .error (.value .date) := by
  have stopped : ((Flow.parse datedCase (some .yaml)).toOption.bind fun flow =>
      faultOf? (Graph.ofFlow flow)) = some (.value .date) := by decide +kernel
  have unlabelled : ((Flow.parse datedCase (some .yaml)).toOption.bind fun flow =>
      flow.entries.head?.bind fun entry => (casesOf entry.2).head?.bind fun c =>
        faultOf? (caseLabel c 0)) = some (.value .date) := by decide +kernel
  -- Whatever looks into the text would run the reader again, so only its result is kept.
  generalize Flow.parse datedCase (some .yaml) = read at stopped unlabelled ⊢
  cases read with
  | error fault => contradiction
  | ok flow =>
      rw [Except.toOption, Option.bind_some] at unlabelled
      obtain ⟨entry, first, unlabelled⟩ := Option.bind_eq_some_iff.mp unlabelled
      obtain ⟨c, own, unlabelled⟩ := Option.bind_eq_some_iff.mp unlabelled
      exact ⟨flow, rfl, faultOf?_eq_some_iff.mp stopped, entry, List.mem_of_head? first, c,
        List.mem_of_head? own, faultOf?_eq_some_iff.mp unlabelled⟩

end Diagram

end FlowDiagram
