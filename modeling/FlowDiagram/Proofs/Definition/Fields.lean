import FlowDiagram.Proofs.Definition.Keys
import FlowDiagram.Proofs.Definition.Shown
import FlowDiagram.Proofs.Json.Values
import FlowDiagram.Transition.Basic
/-!
# Flows from JSON

What a flow keeps of its document as it is are the fields that do not shape the graph: those
of its scopes, of their nodes, and of the rules and cases of these. In a flow that is read
from a value of JSON all of them are values of JSON, at any depth (`Flow.inJson_of_ofValue?`).

So whatever the document says in such fields, each node has something to show
(`NodeSpec.exists_payload`) and each of its cases a label (`exists_caseLabel`).
-/

namespace FlowDiagram.Definition

open Document Json Transition

/-- Fields whose values are values of JSON. -/
def FieldsInJson (fields : Entries Value) : Prop := ∀ e ∈ fields, e.2.InJson

/-- The fields of a node, its rules and its cases are values of JSON. -/
structure NodeSpec.OwnInJson (spec : NodeSpec) : Prop where
  others : FieldsInJson spec.others
  post : ∀ rules, spec.post.value? = some rules → FieldsInJson rules.others
  cases : ∀ cs, spec.cases.value? = some cs → ∀ c ∈ cs, FieldsInJson c.others

/-- All fields of a flow are values of JSON, and so are those of every scope inside it. -/
inductive Flow.InJson : Flow → Prop where
  | intro {flow : Flow} (others : FieldsInJson flow.others)
      (own : ∀ entry ∈ flow.entries, NodeSpec.OwnInJson entry.2)
      (inside : ∀ body ∈ Flow.bodies flow, Flow.InJson body) : Flow.InJson flow

/-- All fields of a node are values of JSON, those of the scope that it holds among them. -/
structure NodeSpec.InJson (spec : NodeSpec) : Prop extends spec.OwnInJson where
  body : ∀ body, spec.subflow.value? = some body → Flow.InJson body

variable {v : Value} {es : List (Value × Value)} {fields : Entries Value} {names : List String}
variable {spec : NodeSpec} {flow body : Flow}

/-! ## Fields -/

theorem fieldsInJson_nil : FieldsInJson [] := fun _ member => absurd member List.not_mem_nil

theorem FieldsInJson.cons (others : FieldsInJson fields) (json : v.InJson) (name : String) :
    FieldsInJson ((name, v) :: fields) :=
  List.forall_mem_cons.mpr ⟨json, others⟩

theorem FieldsInJson.append {others : Entries Value} (first : FieldsInJson fields)
    (second : FieldsInJson others) : FieldsInJson (fields ++ others) :=
  List.forall_mem_append.mpr ⟨first, second⟩

theorem FieldsInJson.among (json : FieldsInJson fields) (names : List String) :
    FieldsInJson (fields.among names) := by
  intro e member
  obtain ⟨name, -, found⟩ := List.mem_filterMap.mp member
  obtain ⟨v, held, rfl⟩ := Option.map_eq_some_iff.mp found
  exact json (name, v) (Entries.mem_of_get? held)

theorem FieldsInJson.outside (json : FieldsInJson fields) (names : List String) :
    FieldsInJson (fields.outside names) :=
  fun e member => json e (List.mem_of_mem_filter member)

/-- A field that is missing is null. -/
theorem FieldsInJson.getD (json : FieldsInJson fields) (name : String) :
    ((fields.get? name).getD .null).InJson := by
  cases found : fields.get? name with
  | none => exact .null
  | some v => exact json (name, v) (Entries.mem_of_get? found)

theorem fieldsInJson_of_fields? (json : EntriesInJson es) (read : fields? es = some fields) :
    FieldsInJson fields := by
  induction es generalizing fields with
  | nil =>
      cases read
      exact fieldsInJson_nil
  | cons e rest ih =>
      obtain ⟨k, v⟩ := e
      obtain ⟨⟨-, value⟩, others⟩ := List.forall_mem_cons.mp json
      cases k with
      | str name =>
          obtain ⟨later, found, rfl⟩ := Option.map_eq_some_iff.mp read
          exact (ih others found).cons value name
      | _ => contradiction

theorem fieldsInJson_rules (json : FieldsInJson fields) :
    FieldsInJson (PostRules.ofFields fields).others := by
  induction fields with
  | nil => exact fieldsInJson_nil
  | cons e rest ih =>
      obtain ⟨value, others⟩ := List.forall_mem_cons.mp json
      unfold PostRules.ofFields
      dsimp only
      split
      · exact ih others
      split
      · exact ih others
      · exact (ih others).cons value _

theorem fieldsInJson_case (json : FieldsInJson fields) :
    FieldsInJson (Case.ofFields fields).others := by
  induction fields with
  | nil => exact fieldsInJson_nil
  | cons e rest ih =>
      obtain ⟨value, others⟩ := List.forall_mem_cons.mp json
      unfold Case.ofFields
      dsimp only
      split
      · exact ih others
      · exact (ih others).cons value _

/-! ## Reading -/

theorem entriesInJson_of_map (json : (Value.map es).InJson) : EntriesInJson es := by
  cases json with
  | map keys values => exact fun e member => ⟨keys e member, values e member⟩

theorem fieldsInJson_of_postField? {field : Slot PostRules} (json : v.InJson)
    (read : postField? v = some field) {rules : PostRules} (held : field.value? = some rules) :
    FieldsInJson rules.others := by
  cases v with
  | map entries =>
      obtain ⟨fields, found, rfl⟩ := Option.map_eq_some_iff.mp read
      cases held
      exact fieldsInJson_rules (fieldsInJson_of_fields? (entriesInJson_of_map json) found)
  | _ =>
      cases read
      contradiction

theorem fieldsInJson_of_case {c : Case} (json : v.InJson) (read : Case.ofValue? v = some c) :
    FieldsInJson c.others := by
  cases v with
  | map entries =>
      obtain ⟨fields, found, rfl⟩ := Option.map_eq_some_iff.mp read
      exact fieldsInJson_case (fieldsInJson_of_fields? (entriesInJson_of_map json) found)
  | _ => contradiction

theorem fieldsInJson_of_casesField? {field : Slot (List Case)} (json : v.InJson)
    (read : casesField? v = some field) {cs : List Case} (held : field.value? = some cs) :
    ∀ c ∈ cs, FieldsInJson c.others := by
  cases json with
  | @seq items each =>
      obtain ⟨cases', found, rfl⟩ := Option.map_eq_some_iff.mp read
      cases held
      intro c member
      obtain ⟨item, listed, case⟩ := exists_of_mapM_eq_some found c member
      exact fieldsInJson_of_case (each item (List.mem_of_mem_filter listed)) case
  | _ =>
      cases read
      contradiction

mutual

theorem inJson_of_specOf? : ∀ (es : List (Value × Value)) {spec : NodeSpec},
    EntriesInJson es → specOf? es = some spec → spec.InJson
  | [], spec, json, h => by
      cases h
      refine ⟨⟨fieldsInJson_nil, ?_, ?_⟩, ?_⟩
      all_goals
        intro given held
        contradiction
  | (k, v) :: rest, spec, json, h => by
      obtain ⟨⟨-, value⟩, others⟩ := List.forall_mem_cons.mp json
      cases k with
      | str name =>
          rw [specOf?] at h
          obtain ⟨known, found, h⟩ := Option.bind_eq_some_iff.mp h
          have before := inJson_of_specOf? rest others found
          split at h
          · obtain ⟨post, read, h⟩ := Option.bind_eq_some_iff.mp h
            cases h
            exact { before with post := fun _ => fieldsInJson_of_postField? value read }
          split at h
          · obtain ⟨cases', read, h⟩ := Option.bind_eq_some_iff.mp h
            cases h
            exact { before with cases := fun _ => fieldsInJson_of_casesField? value read }
          split at h
          · cases h
            exact { before with }
          split at h
          · obtain ⟨field, read, h⟩ := Option.bind_eq_some_iff.mp h
            cases h
            exact { before with body := inJson_of_subflowField? v value read }
          · cases h
            exact { before with others := before.others.cons value name }
      | _ => contradiction
termination_by structural es => es

theorem inJson_of_subflowField? : ∀ (v : Value) {field : Slot Flow}, v.InJson →
    subflowField? v = some field → ∀ body, field.value? = some body → Flow.InJson body
  | v, field, json, h, body, held => by
      cases v with
      | map entries =>
          obtain ⟨scope, found, rfl⟩ := Option.map_eq_some_iff.mp h
          cases held
          exact inJson_of_scopeOf? entries (entriesInJson_of_map json) found
      | _ =>
          cases h
          contradiction
termination_by structural v => v

theorem inJson_of_scopeOf? : ∀ (es : List (Value × Value)) {flow : Flow},
    EntriesInJson es → scopeOf? es = some flow → Flow.InJson flow
  | [], flow, json, h => by
      cases h
      exact .intro fieldsInJson_nil (fun entry member => absurd member List.not_mem_nil)
        fun body held => absurd held List.not_mem_nil
  | (k, v) :: rest, flow, json, h => by
      obtain ⟨⟨-, value⟩, later⟩ := List.forall_mem_cons.mp json
      cases k with
      | str name =>
          rw [scopeOf?] at h
          obtain ⟨known, found, h⟩ := Option.bind_eq_some_iff.mp h
          obtain ⟨others, own, inside⟩ := inJson_of_scopeOf? rest later found
          split at h
          · cases h
            exact .intro others own inside
          split at h
          · obtain ⟨nodes, read, h⟩ := Option.bind_eq_some_iff.mp h
            cases h
            have each := inJson_of_nodes? v value read
            refine .intro others (fun entry listed => (each entry listed).toOwnInJson) ?_
            intro body member
            obtain ⟨entry, listed, held⟩ := Flow.mem_bodies.mp member
            exact (each entry listed).body body held
          split at h
          · obtain ⟨edges, -, h⟩ := Option.bind_eq_some_iff.mp h
            cases h
            exact .intro others own inside
          · cases h
            exact .intro (others.cons value name) own inside
      | _ => contradiction
termination_by structural es => es

theorem inJson_of_nodes? : ∀ (v : Value) {nodes : Entries NodeSpec}, v.InJson →
    nodes? v = some nodes → ∀ entry ∈ nodes, entry.2.InJson
  | v, nodes, json, h => by
      cases v with
      | null =>
          cases h
          exact fun entry member => absurd member List.not_mem_nil
      | map entries =>
          obtain ⟨-, source⟩ := names_of_accepted? h
          intro entry member
          have read := Entries.mem_of_mem_ofList (source entry member)
          exact inJson_of_nodeEntries entries (entriesInJson_of_map json) read
      | _ => contradiction
termination_by structural v => v

theorem inJson_of_nodeEntries : ∀ (es : List (Value × Value)) {key : String} {spec : NodeSpec},
    EntriesInJson es → (key, some spec) ∈ nodeEntries es → spec.InJson
  | [], key, spec, json, member => absurd member List.not_mem_nil
  | (k, v) :: rest, key, spec, json, member => by
      obtain ⟨⟨-, value⟩, others⟩ := List.forall_mem_cons.mp json
      obtain first | later := List.mem_cons.mp member
      · exact inJson_of_node? v value (Prod.mk.inj first).2.symm
      · exact inJson_of_nodeEntries rest others later
termination_by structural es => es

theorem inJson_of_node? : ∀ (v : Value) {spec : NodeSpec}, v.InJson → node? v = some spec →
    spec.InJson
  | v, spec, json, h => by
      cases v with
      | null =>
          cases h
          refine ⟨⟨fieldsInJson_nil, ?_, ?_⟩, ?_⟩
          all_goals
            intro given held
            contradiction
      | map entries => exact inJson_of_specOf? entries (entriesInJson_of_map json) h
      | _ => contradiction
termination_by structural v => v

end

/-- A flow that is read from a value of JSON keeps only values of JSON. -/
theorem Flow.inJson_of_ofValue? (json : v.InJson) (read : Flow.ofValue? v = some flow) :
    Flow.InJson flow := by
  cases v with
  | map entries => exact inJson_of_scopeOf? entries (entriesInJson_of_map json) read
  | _ => contradiction

/-! ## Payloads -/

/-- The known fields in front, and the others behind, are shown where all are. -/
theorem exists_plainFields_arranged (json : FieldsInJson fields) (known : List String) :
    ∃ shown, plainFields (fields.arrange known) = .ok shown :=
  exists_plainFields ((json.among known).append (json.outside known))

theorem exists_rulesPayload {rules : PostRules} (json : FieldsInJson rules.others) :
    ∃ shown, rules.payload = .ok shown := by
  obtain ⟨others, found⟩ := exists_plainFields_arranged json PostRules.known
  exact ⟨_, PostRules.payload_eq_ok_iff.mpr ⟨others, found, rfl⟩⟩

theorem exists_casePayload {c : Case} (json : FieldsInJson c.others) :
    ∃ shown, c.payload = .ok shown := by
  obtain ⟨others, found⟩ := exists_plainFields_arranged json Case.known
  exact ⟨_, Case.payload_eq_ok_iff.mpr ⟨others, found, rfl⟩⟩

theorem exists_shownCases {cs : List Case} (json : ∀ c ∈ cs, FieldsInJson c.others) :
    ∃ shown, shownCases cs = .ok shown := by
  obtain ⟨list, found⟩ := exists_mapM_eq_ok fun c member => exists_casePayload (json c member)
  exact ⟨_, map_eq_ok_iff.mpr ⟨list, found, rfl⟩⟩

theorem Slot.exists_showM {α : Type} {f : α → Except BadBytes Value} (slot : Slot α)
    (name : String) (given : ∀ a, slot.value? = some a → ∃ shown, f a = .ok shown) :
    ∃ shown, slot.showM name f = .ok shown := by
  cases slot with
  | absent => exact ⟨_, rfl⟩
  | dropped => exact ⟨_, rfl⟩
  | given a =>
      obtain ⟨shown, found⟩ := given a rfl
      exact ⟨_, map_eq_ok_iff.mpr ⟨shown, found, rfl⟩⟩

/-- A node can be shown if the scope that it holds can. -/
theorem NodeSpec.OwnInJson.exists_payload (json : spec.OwnInJson)
    (body : ∀ body, spec.subflow.value? = some body → ∃ shown, scopePayload body = .ok shown) :
    ∃ shown, spec.payload = .ok shown := by
  obtain ⟨first, leading⟩ := exists_plainFields (json.others.among NodeSpec.leading)
  obtain ⟨last, trailing⟩ := exists_plainFields ((json.others.among NodeSpec.trailing).append
    (json.others.outside (NodeSpec.leading ++ NodeSpec.trailing)))
  obtain ⟨post, ownPost⟩ := spec.post.exists_showM "post" fun rules held =>
    exists_rulesPayload (json.post rules held)
  obtain ⟨cases', ownCases⟩ := spec.cases.exists_showM "choice_cases" fun cs held =>
    exists_shownCases (json.cases cs held)
  obtain ⟨subflow, ownSubflow⟩ := spec.subflow.exists_showM "subflow" body
  exact ⟨_, payload_eq_ok_iff.mpr ⟨first, post, cases', subflow, last, leading, ownPost, ownCases,
    ownSubflow, trailing, rfl⟩⟩

theorem exists_shownEntries {specs : List (String × NodeSpec)}
    (each : ∀ entry ∈ specs, ∃ shown, entry.2.payload = .ok shown) :
    ∃ shown, shownEntries specs = .ok shown := by
  obtain ⟨list, found⟩ : ∃ list, specs.mapM entryPayload = .ok list := by
    apply exists_mapM_eq_ok
    intro entry listed
    obtain ⟨shown, own⟩ := each entry listed
    exact ⟨_, map_eq_ok_iff.mpr ⟨_, map_eq_ok_iff.mpr ⟨shown, own, rfl⟩, rfl⟩⟩
  rw [← payloads_eq_mapM] at found
  exact ⟨_, map_eq_ok_iff.mpr ⟨list, found, rfl⟩⟩

/-- Every scope of a flow from JSON can be shown. -/
theorem Flow.InJson.exists_scopePayload (json : Flow.InJson flow) :
    ∃ shown, scopePayload flow = .ok shown := by
  induction json with
  | @intro flow others own inside ih =>
      obtain ⟨fields, plain⟩ := exists_plainFields others
      obtain ⟨nodes, shows⟩ : ∃ nodes, flow.nodes.showM "nodes" shownEntries = .ok nodes := by
        apply flow.nodes.exists_showM
        intro specs held
        apply exists_shownEntries
        intro entry member
        have listed : entry ∈ flow.entries := by rwa [Scope.entries, held]
        apply (own entry listed).exists_payload
        intro body held
        exact ih body (Flow.mem_bodies.mpr ⟨entry, listed, held⟩)
      exact ⟨_, scopePayload_eq_ok_iff.mpr ⟨nodes, fields, shows, plain, rfl⟩⟩

/-- Every node of a flow from JSON has something to show. -/
theorem NodeSpec.InJson.exists_payload (json : spec.InJson) : ∃ shown, spec.payload = .ok shown :=
  json.toOwnInJson.exists_payload fun body held => (json.body body held).exists_scopePayload

/-- The nodes of a flow from JSON. -/
theorem Flow.InJson.entry (json : Flow.InJson flow) {entry : String × NodeSpec}
    (listed : entry ∈ flow.entries) : entry.2.InJson := by
  obtain ⟨-, own, inside⟩ := json
  exact ⟨own entry listed, fun body held =>
    inside body (Flow.mem_bodies.mpr ⟨entry, listed, held⟩)⟩

/-! ## Labels -/

/-- Every case of a choice from JSON has a label. -/
theorem exists_caseLabel {c : Case} (json : FieldsInJson c.others) (index : Int) :
    ∃ label, caseLabel c index = .ok label := by
  have equal : (c.field "cond_eq").InJson := json.getD "cond_eq"
  have limit : (c.field "cond_gt").InJson := json.getD "cond_gt"
  have tree : (c.field "expr").InJson := json.getD "expr"
  unfold caseLabel
  split
  · obtain ⟨text, found⟩ := (rendered_of_inJson tree).alone false
    exact ⟨_, by rw [found]; rfl⟩
  · obtain ⟨text, found⟩ := exists_operand limit
    exact ⟨_, by rw [found]; rfl⟩
  · obtain ⟨text, found⟩ := exists_operand equal
    exact ⟨_, by rw [found]; rfl⟩

theorem exists_labelled {cs : List Case} (json : ∀ c ∈ cs, FieldsInJson c.others) (index : Int) :
    ∃ list, labelled cs index = .ok list := by
  induction cs generalizing index with
  | nil => exact ⟨[], rfl⟩
  | cons c rest ih =>
      obtain ⟨own, others⟩ := List.forall_mem_cons.mp json
      obtain ⟨label, first⟩ := exists_caseLabel own index
      obtain ⟨list, later⟩ := ih others (index + 1)
      exact ⟨_, by rw [labelled, first, later]; rfl⟩

theorem exists_ofCases {cs : List Case} (json : ∀ c ∈ cs, FieldsInJson c.others) (key : String)
    (index : Int) : ∃ ts, ofCases key cs index = .ok ts := by
  induction cs generalizing index with
  | nil => exact ⟨[], rfl⟩
  | cons c rest ih =>
      obtain ⟨own, others⟩ := List.forall_mem_cons.mp json
      obtain ⟨ts, later⟩ := ih others (index + 1)
      rw [ofCases]
      split
      · exact ⟨ts, later⟩
      · obtain ⟨label, first⟩ := exists_caseLabel own index
        exact ⟨_, by rw [first, later]; rfl⟩

/-- The cases of a node; a node that mentions none has none. -/
theorem NodeSpec.OwnInJson.getD_cases (json : spec.OwnInJson) :
    ∀ c ∈ spec.cases.value?.getD [], FieldsInJson c.others := by
  cases held : spec.cases.value? with
  | none => exact fun c member => absurd member List.not_mem_nil
  | some cs => exact json.cases cs held

theorem exists_implied {specs : List (String × NodeSpec)}
    (own : ∀ entry ∈ specs, NodeSpec.OwnInJson entry.2) : ∃ ts, implied specs = .ok ts := by
  induction specs with
  | nil => exact ⟨[], rfl⟩
  | cons entry rest ih =>
      obtain ⟨key, spec⟩ := entry
      obtain ⟨json, others⟩ := List.forall_mem_cons.mp own
      obtain ⟨ts, later⟩ := ih others
      obtain ⟨byCases, cases'⟩ := exists_ofCases json.getD_cases key 0
      obtain ⟨first, found⟩ : ∃ first, ofNode key spec = .ok first := by
        rw [ofNode, cases']
        split
        · exact ⟨_, rfl⟩
        · exact ⟨_, rfl⟩
      exact ⟨_, by rw [implied, found, later]; rfl⟩

/-- The transitions of every scope from JSON can be derived. -/
theorem Flow.InJson.exists_ofScope (json : Flow.InJson flow) : ∃ ts, ofScope flow = .ok ts := by
  obtain ⟨-, own, -⟩ := json
  rw [ofScope]
  split
  · exact ⟨_, rfl⟩
  · exact exists_implied own

end FlowDiagram.Definition
