import FlowDiagram.Proofs.Definition.Acceptance
import FlowDiagram.Proofs.Diagram.Data
import FlowDiagram.Proofs.Graph.Origins
import FlowDiagram.Proofs.Transition.Spelled
/-!
# Cards and edges of choices

The card of a choice lists its cases with labels and targets, and the edges that leave the choice
carry the same labels. The two come from separate passes over the cases, one of which leaves out
cases without a target. `choices_account` says that they agree in every scope without explicit
edges: each case, default or rule that leads to a key of the scope has its edge, and each edge
that leaves the choice has one of these behind it.

There is one more kind of edge. A choice that leads to no key of its scope is a way out of it, and
the edges that leave a group around it start there (`choice_left_from_outside`).
-/

namespace FlowDiagram.Diagram

open Document Definition Transition FlowDiagram.Graph

/-! ## What a choice says -/

/-- What a choice says of where it continues: by the cases on its card, by its default or by its
rules. -/
inductive Continues (spec : NodeSpec) (card : Entries Value) : Option String → String → Prop
  | case {items : List Value} {label target : String}
      (listed : card.get? "cases" = some (.seq items))
      (item : .record [("label", .str label), ("target", .str target)] ∈ items)
      (filled : target ≠ "") : Continues spec card (some label) target
  | default {target : String} (named : spec.defaultAction.value? = some target)
      (filled : target ≠ "") : Continues spec card (some "default") target
  | static {rules : PostRules} {target : String} (given : spec.post.value? = some rules)
      (named : rules.actionStatic.value? = some target) (filled : target ≠ "") :
      Continues spec card none target
  | labelled {rules : PostRules} {targets : Entries String} {label target : String}
      (given : spec.post.value? = some rules) (mapped : rules.actionMap.value? = some targets)
      (member : (label, target) ∈ targets) : Continues spec card (some label) target

section

variable {spec : NodeSpec} {card : Entries Value} {key target : String} {label : Option String}
variable {cs : List Case} {index : Int} {list : List (String × Case)} {ts own : List Transition}
variable {t : Transition}

/-- The cases with a target become transitions under the labels that all cases have. -/
theorem mem_ofCases_iff (labels : Transition.labelled cs index = .ok list)
    (made : ofCases key cs index = .ok ts) :
    t ∈ ts ↔ ∃ c ∈ list, ∃ target, nonEmpty c.2.action.value? = some target ∧
      t = leaving key target (some c.1) := by
  induction cs generalizing index list ts with
  | nil =>
      cases labels
      cases made
      simp
  | cons c rest ih =>
      obtain ⟨label, own, labels⟩ := bind_eq_ok_iff.mp labels
      obtain ⟨others, later, labels⟩ := bind_eq_ok_iff.mp labels
      cases labels
      rw [ofCases] at made
      rw [List.exists_mem_cons_iff]
      split at made
      · next nowhere => simp [ih later made, nowhere]
      · next target leads =>
          obtain ⟨label', own', made⟩ := bind_eq_ok_iff.mp made
          obtain rfl := Except.ok.inj (own.symm.trans own')
          obtain ⟨others', later', made⟩ := bind_eq_ok_iff.mp made
          cases made
          simp [ih later later', leads]

theorem mem_toList_map_leaving_iff {r : Option String} :
    t ∈ ((nonEmpty r).map (leaving key · label)).toList ↔
      ∃ target, (r = some target ∧ target ≠ "") ∧ leaving key target label = t := by
  simp only [Option.mem_toList, Option.map_eq_some_iff, nonEmpty_eq_some_iff]

theorem mem_getD_nil_iff {α : Type} {o : Option (List α)} {a : α} :
    a ∈ o.getD [] ↔ ∃ l, o = some l ∧ a ∈ l := by
  cases o <;> simp

theorem mem_ofRules_iff {rules : PostRules} : t ∈ ofRules key rules ↔
    (∃ target, (rules.actionStatic.value? = some target ∧ target ≠ "") ∧
        leaving key target none = t) ∨
      ∃ entry, (∃ targets, rules.actionMap.value? = some targets ∧ entry ∈ targets) ∧
        leaving key entry.2 (some entry.1) = t := by
  rw [ofRules, List.mem_append, mem_toList_map_leaving_iff, List.mem_map]
  simp only [mem_getD_nil_iff]

theorem mem_byRules_iff : t ∈ (spec.post.value?.map (ofRules key)).getD [] ↔
    ∃ rules, spec.post.value? = some rules ∧ t ∈ ofRules key rules := by
  rw [mem_getD_nil_iff]
  simp

/-- The card of a choice lists its cases under their labels. -/
theorem exists_labelled_of_details (choice : spec.kind = .choice)
    (detailed : details spec = .ok card) :
    ∃ list, Transition.labelled (spec.cases.value?.getD []) 0 = .ok list ∧
      card.get? "cases" = some (.seq (list.map fun c =>
        .record [("label", .str c.1), ("target", .optional c.2.action.value?)])) := by
  rw [details, choice] at detailed
  obtain ⟨shown, made, detailed⟩ := bind_eq_ok_iff.mp detailed
  obtain ⟨list, labels, made⟩ := bind_eq_ok_iff.mp (mapError_eq_ok_iff.mp made)
  cases made
  cases detailed
  refine ⟨list, labels, ?_⟩
  rw [List.map_map]
  rfl

/-- A record on a card is that of a case with this label and this target. -/
theorem record_mem_map_iff {label : String} :
    .record [("label", .str label), ("target", .str target)] ∈
        list.map (fun c => Value.record
          [("label", .str c.1), ("target", .optional c.2.action.value?)]) ↔
      ∃ c ∈ list, c.1 = label ∧ c.2.action.value? = some target := by
  rw [List.mem_map]
  refine exists_congr fun c => and_congr_right fun _ => ?_
  cases c.2.action.value? <;> simp [Value.record, Value.optional]

/-- The transitions of a choice are what its card, its default and its rules say. -/
theorem mem_ofNode_iff (choice : spec.kind = .choice) (detailed : details spec = .ok card)
    (made : ofNode key spec = .ok own) :
    t ∈ own ↔ ∃ label target, Continues spec card label target ∧ leaving key target label = t := by
  obtain ⟨list, labels, listed⟩ := exists_labelled_of_details choice detailed
  rw [ofNode, if_pos choice] at made
  obtain ⟨byCases, made', made⟩ := bind_eq_ok_iff.mp made
  cases made
  rw [List.mem_append, List.mem_append, mem_byRules_iff, mem_ofCases_iff labels made', ofDefault,
    mem_toList_map_leaving_iff]
  constructor
  · rintro ((⟨rules, given, used⟩ | ⟨c, member, target, leads, rfl⟩) |
      ⟨target, ⟨named, filled⟩, rfl⟩)
    · obtain ⟨target, ⟨named, filled⟩, rfl⟩ | ⟨⟨label, target⟩, ⟨targets, mapped, member⟩, rfl⟩ :=
        mem_ofRules_iff.mp used
      · exact ⟨none, target, .static given named filled, rfl⟩
      · exact ⟨some label, target, .labelled given mapped member, rfl⟩
    · obtain ⟨named, filled⟩ := nonEmpty_eq_some_iff.mp leads
      refine ⟨some c.1, target, .case listed (record_mem_map_iff.mpr ?_) filled, rfl⟩
      exact ⟨c, member, rfl, named⟩
    · exact ⟨some "default", target, .default named filled, rfl⟩
  · rintro ⟨label, target, continues, rfl⟩
    cases continues with
    | case listed' item filled =>
        obtain rfl := Value.seq.inj (Option.some.inj (listed.symm.trans listed'))
        obtain ⟨c, member, rfl, named⟩ := record_mem_map_iff.mp item
        exact .inl (.inr ⟨c, member, target, nonEmpty_eq_some_iff.mpr ⟨named, filled⟩, rfl⟩)
    | default named filled => exact .inr ⟨target, ⟨named, filled⟩, rfl⟩
    | static given named filled =>
        exact .inl (.inl ⟨_, given, mem_ofRules_iff.mpr (.inl ⟨target, ⟨named, filled⟩, rfl⟩)⟩)
    | labelled given mapped member =>
        exact .inl (.inl ⟨_, given, mem_ofRules_iff.mpr (.inr ⟨_, ⟨_, mapped, member⟩, rfl⟩)⟩)

/-! ## Transitions of a scope without edges -/

theorem source_of_mem_ofCases (made : ofCases key cs index = .ok ts) (used : t ∈ ts) :
    t.source = some key := by
  induction cs generalizing index ts with
  | nil =>
      cases made
      contradiction
  | cons c rest ih =>
      rw [ofCases] at made
      split at made
      · exact ih made used
      · obtain ⟨label, -, made⟩ := bind_eq_ok_iff.mp made
        obtain ⟨others, later, made⟩ := bind_eq_ok_iff.mp made
        cases made
        obtain rfl | used := List.mem_cons.mp used
        · rfl
        · exact ih later used

/-- The transitions that a node implies leave it. -/
theorem source_of_mem_ofNode (made : ofNode key spec = .ok own) (used : t ∈ own) :
    t.source = some key := by
  have rules (member : t ∈ (spec.post.value?.map (ofRules key)).getD []) : t.source = some key := by
    obtain ⟨rules, -, said⟩ := mem_byRules_iff.mp member
    obtain ⟨-, -, rfl⟩ | ⟨-, -, rfl⟩ := mem_ofRules_iff.mp said
    · rfl
    · rfl
  rw [ofNode] at made
  split at made
  · obtain ⟨byCases, made', made⟩ := bind_eq_ok_iff.mp made
    cases made
    obtain (member | member) | member := by simpa only [List.mem_append] using used
    · exact rules member
    · exact source_of_mem_ofCases made' member
    · obtain ⟨-, -, rfl⟩ := mem_toList_map_leaving_iff.mp member
      rfl
  · cases made
    exact rules used

theorem exists_ofNode_of_implied {specs : List (String × NodeSpec)} (made : implied specs = .ok ts)
    (entry : (key, spec) ∈ specs) : ∃ own, ofNode key spec = .ok own ∧ own ⊆ ts := by
  induction specs generalizing ts with
  | nil => contradiction
  | cons first rest ih =>
      obtain ⟨own, here, made⟩ := bind_eq_ok_iff.mp made
      obtain ⟨others, later, made⟩ := bind_eq_ok_iff.mp made
      cases made
      obtain rfl | entry := List.mem_cons.mp entry
      · exact ⟨own, here, List.subset_append_left _ _⟩
      · obtain ⟨own', found, among⟩ := ih later entry
        exact ⟨own', found, List.subset_append_of_subset_right _ among⟩

theorem exists_of_mem_implied {specs : List (String × NodeSpec)} (made : implied specs = .ok ts)
    (used : t ∈ ts) : ∃ entry ∈ specs, ∃ own, ofNode entry.1 entry.2 = .ok own ∧ t ∈ own := by
  induction specs generalizing ts with
  | nil =>
      cases made
      contradiction
  | cons first rest ih =>
      obtain ⟨own, here, made⟩ := bind_eq_ok_iff.mp made
      obtain ⟨others, later, made⟩ := bind_eq_ok_iff.mp made
      cases made
      rw [List.exists_mem_cons_iff]
      obtain used | used := List.mem_append.mp used
      · exact .inl ⟨own, here, used⟩
      · exact .inr (ih later used)

/-- A scope without edges leads from a choice where the choice says. -/
theorem hasTransition_iff {scope : Flow} (implicit : isExplicit scope = false)
    (distinct : scope.entries.names.Nodup) (derived : ofScope scope = .ok ts)
    (entry : (key, spec) ∈ scope.entries) (choice : spec.kind = .choice)
    (detailed : details spec = .ok card) :
    HasTransition scope key target label ↔ Continues spec card label target := by
  have unlisted : scope.edges.value? = none := by simpa [isExplicit] using implicit
  have made := (ofScope_of_no_edges unlisted).symm.trans derived
  obtain ⟨own, found, among⟩ := exists_ofNode_of_implied made entry
  have said : leaving key target label ∈ own ↔ Continues spec card label target := by
    rw [mem_ofNode_iff choice detailed found]
    constructor
    · rintro ⟨label', target', continues, same⟩
      cases same
      exact continues
    · exact fun continues => ⟨label, target, continues, rfl⟩
  rw [← said]
  constructor
  · rintro ⟨ts', derived', used⟩
    obtain rfl := Except.ok.inj (derived.symm.trans derived')
    obtain ⟨⟨key', spec'⟩, entry', own', found', used'⟩ := exists_of_mem_implied made used
    obtain rfl := Option.some.inj (source_of_mem_ofNode found' used')
    -- Its key tells the two entries apart.
    obtain rfl := Option.some.inj
      ((Entries.get?_of_mem distinct entry).symm.trans (Entries.get?_of_mem distinct entry'))
    obtain rfl := Except.ok.inj (found.symm.trans found')
    exact used'
  · exact fun used => ⟨ts, derived, among used⟩

end

/-! ## Choices in a graph -/

/-- The details that a node shows when it is drawn. -/
def ShowsCard (n : Node) (card : Entries Value) : Prop :=
  ∃ shape, Shape.ofNode n = .ok shape ∧ shape.data.get? "details" = some (.record card)

/-- The edges that leave a choice are those that its card, its default and its rules tell of. If
none of these leads to a key of the scope, they are edges that leave a group around it. -/
structure EdgesAgree (flow : Flow) (g : Graph) (path : List String) (scope : Flow)
    (spec : NodeSpec) (card : Entries Value) (id : String) : Prop where
  drawn : ∀ label target, Continues spec card label target → target ∈ scope.entries.names →
    ∃ e ∈ g.edges, e.source = id ∧ e.label = label ∧
      EnteredAs flow.entries g.ids path scope target e.target
  explained : ∀ e ∈ g.edges, e.source = id →
    (∃ target, Continues spec card e.label target ∧
        EnteredAs flow.entries g.ids path scope target e.target) ∨
      (∀ label target, Continues spec card label target → target ∉ scope.entries.names) ∧
        LedOut flow g.ids path e.link

section

variable {flow scope : Flow} {path : List String} {key : String} {spec : NodeSpec} {g : Graph}
variable {card : Entries Value} {n : Node} {text : String} {language : Option Language} {v : Value}

theorem exists_showsCard (json : n.spec.InJson) :
    ∃ card, details n.spec = .ok card ∧ ShowsCard n card := by
  obtain ⟨fields, shows⟩ := json.exists_payload
  obtain ⟨card, detailed⟩ := exists_details json
  have data := shownData_eq_ok_iff.mpr ⟨fields, card, shows, detailed, rfl⟩
  refine ⟨card, detailed, _, ofNode_eq_ok_iff.mpr ⟨_, data, rfl⟩, ?_⟩
  exact Entries.get?_ofList_append fields (ownFields n card) "details"

theorem ShowsCard.details_eq (shows : ShowsCard n card) : details n.spec = .ok card := by
  obtain ⟨shape, drawn, found⟩ := shows
  obtain ⟨data, shown, rfl⟩ := ofNode_eq_ok_iff.mp drawn
  obtain ⟨fields, more, -, detailed, rfl⟩ := shownData_eq_ok_iff.mp shown
  have own : Value.record more = .record card := Option.some.inj
    ((Entries.get?_ofList_append fields (ownFields n more) "details").symm.trans found)
  rw [detailed, record_injective own]

theorem embedded?_of_choice (choice : spec.kind = .choice) : spec.embedded? = none := by
  rw [NodeSpec.embedded?, if_neg (by rw [choice]; decide)]

/-- Transitions that the card, the default and the rules say account for the edges. -/
theorem EdgesAgree.of_accounted {x : String} (json : Flow.InJson scope)
    (distinct : scope.entries.names.Nodup) (implicit : isExplicit scope = false)
    (entry : (key, spec) ∈ scope.entries) (choice : spec.kind = .choice)
    (detailed : details spec = .ok card)
    (accounted : Accounted flow g.ids g.links path scope key x) :
    EdgesAgree flow g path scope spec card x := by
  obtain ⟨ts, derived⟩ := json.exists_ofScope
  have said {label : Option String} {target : String} :
      HasTransition scope key target label ↔ Continues spec card label target :=
    hasTransition_iff implicit distinct derived entry choice detailed
  constructor
  · intro label target continues known
    obtain ⟨l, member, source, labelled, enters⟩ :=
      accounted.leaves target label (said.mpr continues) known
    obtain ⟨e, edge, rfl⟩ := List.mem_map.mp member
    exact ⟨e, edge, source, labelled, enters⟩
  · intro e edge source
    obtain ⟨target, leads, enters⟩ | ⟨stuck, out⟩ :=
      accounted.arises e.link (mem_links_of_mem edge) source
    · exact .inl ⟨target, said.mp leads, enters⟩
    · exact .inr ⟨fun label target continues => stuck target label (said.mpr continues), out⟩

theorem exists_parsed (json : language ≠ some .yaml) (read : Json.read text.toList = .ok v) :
    ∃ flow, Flow.parse text language = .ok flow ∧ Flow.InJson flow ∧ Flow.Keyed flow := by
  refine ⟨_, parse_of_read json read, ?_⟩
  cases described : Flow.ofValue? v with
  | none => exact ⟨inJson_empty, keyed_empty⟩
  | some flow =>
      exact ⟨Flow.inJson_of_ofValue? (Json.inJson_of_read read) described,
        Flow.keyed_of_ofValue? described⟩

end

/-- In the graph of a JSON text the edges of every choice in a scope without explicit edges agree
with its card: each case that leads to a key of the scope has its edge with its label, and each
edge that leaves the choice comes from a case, from the default or from a rule. Only the edges of a
choice that leads to no key of its scope come from the outside. -/
theorem choices_account {text : String} {language : Option Language} {v : Value}
    (json : language ≠ some .yaml) (read : Json.read text.toList = .ok v) :
    ∃ flow g rows, Flow.parse text language = .ok flow ∧ Graph.ofFlow flow = .ok g ∧
      IsPreorder flow g rows ∧
      ∀ path scope key spec, ScopeAt flow path scope → isExplicit scope = false →
        (key, spec) ∈ scope.entries → spec.kind = .choice →
        ∃ n card, (⟨path ++ [key], spec⟩, n) ∈ rows ∧ ShowsCard n card ∧
          EdgesAgree flow g path scope spec card n.id := by
  obtain ⟨flow, parsed, inJson, keyed⟩ := exists_parsed json read
  obtain ⟨g, made, -⟩ := exists_ofFlow_of_inJson inJson
  obtain ⟨inner, taken, expanded, like⟩ := exists_expand_of_ofFlow made
  obtain ⟨emitted, ts, run, derived, rfl⟩ := expand_eq_ok_iff.mp expanded
  obtain ⟨rows, traverses, nodes, -⟩ := run.exists_rows like.nodes
  have preorder := traverses.isPreorder nodes (isForest_of_ofFlow made).distinct
  refine ⟨flow, g, rows, parsed, made, preorder, ?_⟩
  intro path scope key spec place implicit entry choice
  obtain ⟨x, given, accounted⟩ :=
    exists_accounted place entry (embedded?_of_choice choice) keyed run derived
  have ids : rowIds rows = emitted.ids := (congrArg (List.map Node.id) nodes).trans like.ids
  have links : g.links = (connect emitted flow.start.value? ts).links :=
    congrArg (List.map Edge.link) like.edges
  obtain ⟨⟨listed, n⟩, row, rfl, rfl⟩ := traverses.given_iff.mp (ids ▸ given)
  have shown : n.spec = spec := (traverses.shows _ row).1
  have within := place.inJson inJson
  obtain ⟨card, detailed, shows⟩ := exists_showsCard (n := n) (shown ▸ within.entry entry)
  refine ⟨n, card, row, shows, ?_⟩
  have own : Accounted flow g.ids g.links path scope key n.id := by
    rw [links, like.ids]
    exact accounted
  exact .of_accounted within (place.keyed keyed).distinct implicit entry choice
    (shown ▸ detailed) own

/-- A text with two choices in a group. The first case of one leads nowhere, and the other one says
nothing, while a rule leads on from the group. -/
def handing : String :=
  "\x7b\"nodes\": \x7b" ++
    "\"s\": \x7b\"kind\": \"subflow\", \"post\": \x7b\"action_static\": \"n\"\x7d, " ++
      "\"subflow\": \x7b\"nodes\": \x7b" ++
        "\"c\": \x7b\"kind\": \"choice\", " ++
          "\"choice_cases\": [\x7b\x7d, \x7b\"action\": \"d\"\x7d]\x7d, " ++
        "\"d\": \x7b\"kind\": \"choice\"\x7d\x7d\x7d\x7d, " ++
    "\"n\": \x7b\x7d\x7d\x7d"

def handingDocument : Value :=
  .record [("nodes", .record [
    ("s", .record [("kind", .str "subflow"), ("post", .record [("action_static", .str "n")]),
      ("subflow", .record [("nodes", .record [
        ("c", .record [("kind", .str "choice"),
          ("choice_cases", .seq [.map [], .record [("action", .str "d")]])]),
        ("d", .record [("kind", .str "choice")])])])]),
    ("n", .map [])])]

def leadingChoice : NodeSpec where
  cases := .given [{}, { action := .given "d" }]
  others := [("kind", .str "choice")]

def silentChoice : NodeSpec where
  others := [("kind", .str "choice")]

def handedScope : Flow where
  nodes := .given [("c", leadingChoice), ("d", silentChoice)]

def leadingCard : Entries Value :=
  [("cases", .seq [.record [("label", .str "Case 1"), ("target", .null)],
      .record [("label", .str "Case 2"), ("target", .str "d")]]),
    ("default_action", .null)]

def silentCard : Entries Value := [("cases", .seq []), ("default_action", .null)]

def handingFlow : Flow where
  nodes := .given [
    ("s", {
      post := .given { actionStatic := .given "n" }
      subflow := .given handedScope
      others := [("kind", .str "subflow")] }),
    ("n", {})]

theorem read_handing : Json.read handing.toList = .ok handingDocument := by cbv

theorem parse_handing : Flow.parse handing none = .ok handingFlow :=
  parse_of_described nofun read_handing rfl

theorem handedScope_at : ScopeAt handingFlow ["s"] handedScope :=
  .inside List.mem_cons_self rfl .root

theorem continues_leadingChoice_iff {label : Option String} {target : String} :
    Continues leadingChoice leadingCard label target ↔ label = some "Case 2" ∧ target = "d" := by
  constructor
  · intro continues
    cases continues with
    | case listed item filled =>
        cases listed
        simpa [Value.record] using item
    | default named filled => contradiction
    | static given named filled => contradiction
    | labelled given mapped member => contradiction
  · rintro ⟨rfl, rfl⟩
    exact .case rfl (.tail _ (.head _)) (by decide)

/-- The edges of the first choice are those that its second case gives, under the number that the
card shows. -/
theorem choices_account_handing :
    ∃ g n, Graph.ofFlow handingFlow = .ok g ∧ n ∈ g.nodes ∧ n.spec = leadingChoice ∧
      ShowsCard n leadingCard ∧ (∃ e ∈ g.edges, e.source = n.id) ∧
      ∀ e ∈ g.edges, e.source = n.id → e.label = some "Case 2" := by
  have json : (none : Option Language) ≠ some .yaml := nofun
  obtain ⟨flow, g, rows, parsed, made, preorder, agree⟩ := choices_account json read_handing
  obtain rfl := Except.ok.inj (parse_handing.symm.trans parsed)
  obtain ⟨n, card, row, shows, edges⟩ := agree ["s"] handedScope "c" leadingChoice handedScope_at
    rfl (.head _) (by decide)
  have spec : n.spec = leadingChoice := (preorder.shows _ row).1
  have detailed : details leadingChoice = .ok leadingCard := rfl
  obtain rfl := Except.ok.inj (detailed.symm.trans (spec ▸ shows.details_eq))
  have leads := continues_leadingChoice_iff.mpr ⟨rfl, rfl⟩
  have known : "d" ∈ handedScope.entries.names := by decide
  refine ⟨g, n, made, preorder.drawn ▸ List.mem_map_of_mem row, spec, shows, ?_, ?_⟩
  · obtain ⟨e, edge, source, -⟩ := edges.drawn _ _ leads known
    exact ⟨e, edge, source⟩
  · intro e edge source
    obtain ⟨target, continues, -⟩ | ⟨stuck, -⟩ := edges.explained e edge source
    · exact (continues_leadingChoice_iff.mp continues).1
    · exact absurd known (stuck _ _ leads)

/-- An edge leaves the second choice, which says nothing: it comes from the rule of the group. -/
theorem choice_left_from_outside :
    Flow.parse handing none = .ok handingFlow ∧ ScopeAt handingFlow ["s"] handedScope ∧
      isExplicit handedScope = false ∧ ("d", silentChoice) ∈ handedScope.entries ∧
      silentChoice.kind = .choice ∧
      ∃ g n, Graph.ofFlow handingFlow = .ok g ∧ n ∈ g.nodes ∧ n.id = "s_d" ∧
        n.spec = silentChoice ∧ ShowsCard n silentCard ∧
        (∀ label target, ¬Continues silentChoice silentCard label target) ∧
        ⟨"s_d-n-default", "s_d", "n", none⟩ ∈ g.edges := by
  refine ⟨parse_handing, handedScope_at, rfl, .tail _ (.head _), by decide, _, _, rfl,
    .tail _ (.tail _ (.head _)), rfl, rfl, ⟨_, rfl, rfl⟩, ?_, .tail _ (.head _)⟩
  intro label target continues
  cases continues with
  | case listed item filled =>
      cases listed
      contradiction
  | default named filled => contradiction
  | static given named filled => contradiction
  | labelled given mapped member => contradiction

end FlowDiagram.Diagram
