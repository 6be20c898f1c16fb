import FlowDiagram.Proofs.Definition.Plain
/-!
# What is shown, field by field

A record shows the typed fields of what it is about, each by itself and only if the document
mentions it, and around them all other fields in their plain forms (`PostRules.payload_eq_ok_iff`,
`Case.payload_eq_ok_iff`, `scopePayload_eq_ok_iff`, `payload_eq_ok_iff`).

The typed fields are parts of the record. Each has at most one name, and no two have the same one
(`Typed`). So what is found under the name of a typed field is what stands in its part, whatever
the other fields are (`Typed.stands`), and without the parts only these are left
(`Typed.outside`).
-/

namespace FlowDiagram.Definition

open Document

/-! ## Fields -/

section

variable {α : Type} {slot : Slot α} {name : String} {seg : Entries Value}

/-- A field that is shown by itself has at most its own name. -/
theorem names_show (name : String) (f : α → Value) (slot : Slot α) :
    (slot.show name f).names.Sublist [name] := by
  cases slot with
  | absent => exact List.nil_sublist _
  | _ => exact .refl _

theorem names_showM {f : α → Except BadBytes Value} (shows : slot.showM name f = .ok seg) :
    seg.names.Sublist [name] := by
  cases slot with
  | absent =>
      cases shows
      exact List.nil_sublist _
  | dropped =>
      cases shows
      exact .refl _
  | given a =>
      obtain ⟨v, -, rfl⟩ := map_eq_ok_iff.mp shows
      exact .refl _

theorem showM_ok (name : String) (f : α → Value) (slot : Slot α) :
    slot.showM name (fun a => .ok (f a)) = .ok (slot.show name f) := by
  cases slot <;> rfl

/-- What fields have under a name stands in one part of them. -/
structure Stands (name : String) (seg fields : Entries Value) : Prop where
  found : fields.get? name = seg.get? name
  inside : ∀ v, (name, v) ∈ fields → (name, v) ∈ seg

theorem stands_between {front back : Entries Value} (before : name ∉ front.names)
    (behind : name ∉ back.names) : Stands name seg (front ++ seg ++ back) where
  found := by
    rw [Entries.get?_append, Entries.get?_append, Entries.get?_eq_none_iff.mpr before,
      Entries.get?_eq_none_iff.mpr behind, Option.none_or, Option.or_none]
  inside v here := by
    obtain first | later := List.mem_append.mp here
    · exact (List.mem_append.mp first).resolve_left
        fun earlier => absurd (List.mem_map_of_mem earlier) before
    · exact absurd (List.mem_map_of_mem later) behind

/-- Parts of a record, one for each of its typed fields. -/
structure Typed (names : List String) (parts : List (String × Entries Value)) : Prop where
  labels : parts.map Prod.fst = names
  distinct : names.Nodup
  own : ∀ part ∈ parts, (Entries.names part.2).Sublist [part.1]

namespace Typed

variable {names : List String} {parts : List (String × Entries Value)} {back : Entries Value}

theorem names_sublist (own : ∀ part ∈ parts, (Entries.names part.2).Sublist [part.1]) :
    (Entries.names (parts.flatMap Prod.snd)).Sublist (parts.map Prod.fst) := by
  induction parts with
  | nil => exact .slnil
  | cons part rest ih =>
      obtain ⟨first, others⟩ := List.forall_mem_cons.mp own
      rw [List.flatMap_cons, Entries.names_append]
      exact first.append (ih others)

/-- Between fields that are none of the typed ones, a typed field stands in its part alone. -/
theorem stands (typed : Typed names parts) (front : Entries Value)
    (before : ∀ n ∈ front.names, n ∉ names) (behind : ∀ n ∈ back.names, n ∉ names)
    (member : (name, seg) ∈ parts) :
    Stands name seg (front ++ parts.flatMap Prod.snd ++ back) := by
  obtain ⟨labels, distinct, own⟩ := typed
  obtain ⟨earlier, later, rfl⟩ := List.append_of_mem member
  have listed : name ∈ names := labels ▸ List.mem_map_of_mem member
  rw [← labels, List.map_append, List.map_cons, List.nodup_append'] at distinct
  obtain ⟨-, others, apart⟩ := distinct
  obtain ⟨first, second⟩ := List.forall_mem_append.mp own
  have ahead : name ∉ Entries.names (earlier.flatMap Prod.snd) :=
    fun here => apart ((names_sublist first).subset here) List.mem_cons_self
  have after : name ∉ Entries.names (later.flatMap Prod.snd) := fun here =>
    (List.nodup_cons.mp others).1
      ((names_sublist (List.forall_mem_cons.mp second).2).subset here)
  have whole : front ++ (earlier ++ (name, seg) :: later).flatMap Prod.snd ++ back =
      front ++ earlier.flatMap Prod.snd ++ seg ++ (later.flatMap Prod.snd ++ back) := by
    simp
  rw [whole]
  refine stands_between ?_ ?_
  · rw [Entries.names_append, List.mem_append, not_or]
    exact ⟨fun here => before name here listed, ahead⟩
  · rw [Entries.names_append, List.mem_append, not_or]
    exact ⟨after, fun here => behind name here listed⟩

theorem outside (typed : Typed names parts) (front : Entries Value)
    (before : ∀ n ∈ front.names, n ∉ names) (behind : ∀ n ∈ back.names, n ∉ names) :
    (front ++ parts.flatMap Prod.snd ++ back).outside names = front ++ back := by
  have inside : ∀ n ∈ Entries.names (parts.flatMap Prod.snd), n ∈ names :=
    fun n here => typed.labels ▸ (names_sublist typed.own).subset here
  rw [Entries.outside_append, Entries.outside_append, Entries.outside_eq_self before,
    Entries.outside_eq_self behind, Entries.outside_eq_nil inside, List.append_nil]

/-- Different names stay different with typed fields between them. -/
theorem nodup_names (typed : Typed names parts) (front : Entries Value)
    (distinct : (Entries.names (front ++ back)).Nodup)
    (apart : ∀ n ∈ Entries.names (front ++ back), n ∉ names) :
    (Entries.names (front ++ parts.flatMap Prod.snd ++ back)).Nodup := by
  have sublist := names_sublist typed.own
  rw [typed.labels] at sublist
  have parted : (front ++ back ++ parts.flatMap Prod.snd).Perm
      (front ++ parts.flatMap Prod.snd ++ back) := by
    rw [List.append_assoc, List.append_assoc]
    exact List.perm_append_comm.append_left front
  refine (parted.map Prod.fst).nodup ?_
  rw [List.map_append, List.nodup_append']
  exact ⟨distinct, typed.distinct.sublist sublist,
    fun n other here => apart n other (sublist.subset here)⟩

end Typed

end

/-! ## Rules, cases and edges -/

/-- Targets under their labels as they are shown. -/
def shownTargets (es : Entries String) : Value := .record (es.map fun e => (e.1, .str e.2))

/-- The typed fields of rules as they are shown. -/
def PostRules.parts (rules : PostRules) : List (String × Entries Value) :=
  [("action_static", rules.actionStatic.show "action_static" .str),
    ("action_map", rules.actionMap.show "action_map" shownTargets)]

theorem PostRules.typed_parts (rules : PostRules) :
    Typed ["action_static", "action_map"] rules.parts where
  labels := rfl
  distinct := by decide
  own := by
    simp only [parts, List.forall_mem_cons]
    exact ⟨names_show _ _ _, names_show _ _ _, nofun⟩

theorem PostRules.payload_eq_ok_iff {rules : PostRules} {v : Value} :
    rules.payload = .ok v ↔ ∃ others, plainFields (rules.others.arrange known) = .ok others ∧
      .record ([] ++ rules.parts.flatMap Prod.snd ++ others) = v := by
  have fields (others : Entries Value) : [] ++ rules.parts.flatMap Prod.snd ++ others =
      rules.actionStatic.show "action_static" .str ++
        rules.actionMap.show "action_map" shownTargets ++ others := by
    simp [parts]
  simp only [fields]
  constructor
  · intro h
    obtain ⟨others, plain, h⟩ := bind_eq_ok_iff.mp h
    exact ⟨others, plain, Except.ok.inj h⟩
  · rintro ⟨others, plain, rfl⟩
    exact bind_eq_ok_iff.mpr ⟨others, plain, rfl⟩

/-- The typed field of a case as it is shown. -/
def Case.parts (c : Case) : List (String × Entries Value) :=
  [("action", c.action.show "action" .str)]

theorem Case.typed_parts (c : Case) : Typed ["action"] c.parts where
  labels := rfl
  distinct := by decide
  own := List.forall_mem_singleton.mpr (names_show _ _ _)

theorem Case.payload_eq_ok_iff {c : Case} {v : Value} :
    c.payload = .ok v ↔ ∃ others, plainFields (c.others.arrange known) = .ok others ∧
      .record ([] ++ c.parts.flatMap Prod.snd ++ others) = v := by
  have fields (others : Entries Value) : [] ++ c.parts.flatMap Prod.snd ++ others =
      c.action.show "action" .str ++ others := by
    simp [parts]
  simp only [fields]
  constructor
  · intro h
    obtain ⟨others, plain, h⟩ := bind_eq_ok_iff.mp h
    exact ⟨others, plain, Except.ok.inj h⟩
  · rintro ⟨others, plain, rfl⟩
    exact bind_eq_ok_iff.mpr ⟨others, plain, rfl⟩

/-- Cases as they are shown. -/
def shownCases (cs : List Case) : Except BadBytes Value := (cs.mapM Case.payload).map .seq

/-- Edges as they are shown. -/
def shownEdges (es : List EdgeEntry) : Value := .seq (es.map EdgeEntry.payload)

/-! ## Nodes and scopes -/

/-- A node as it is shown. -/
def shownNode (spec : NodeSpec) : Except BadBytes Value := spec.payload.map .record

/-- Nodes as they are shown under their keys. -/
def shownEntries (specs : List (String × NodeSpec)) : Except BadBytes Value :=
  (payloads specs).map .record

/-- A node of a scope, shown under its key. -/
def entryPayload (e : String × NodeSpec) : Except BadBytes (String × Value) :=
  (shownNode e.2).map (e.1, ·)

section

variable {specs : Entries NodeSpec} {es : Entries Value} {flow : Flow} {spec : NodeSpec}

theorem payloads_eq_mapM (specs : List (String × NodeSpec)) :
    payloads specs = specs.mapM entryPayload := by
  induction specs with
  | nil => rfl
  | cons e rest ih =>
      obtain ⟨k, spec⟩ := e
      rw [payloads, List.mapM_cons, ih, entryPayload, shownNode]
      cases spec.payload with
      | error e => rfl
      | ok shown => rfl

theorem names_of_payloads (shows : payloads specs = .ok es) : es.names = specs.names := by
  rw [payloads_eq_mapM, mapM_eq_ok_iff] at shows
  induction shows with
  | nil => rfl
  | cons own later ih =>
      obtain ⟨v, -, rfl⟩ := map_eq_ok_iff.mp own
      exact congrArg (List.cons _) ih

theorem shownNodes_eq (slot : Slot (List (String × NodeSpec))) :
    shownNodes slot = slot.showM "nodes" shownEntries := by
  cases slot with
  | given specs =>
      rw [shownNodes, Slot.showM, shownEntries]
      cases payloads specs <;> rfl
  | _ => rw [shownNodes, Slot.showM]

theorem shownScope_eq (slot : Slot Flow) :
    shownScope slot = slot.showM "subflow" scopePayload := by
  cases slot <;> rw [shownScope, Slot.showM]

/-- The typed fields of a scope as they are shown, its nodes being shown already. -/
def scopeParts (flow : Flow) (nodes : Entries Value) : List (String × Entries Value) :=
  [("start", flow.start.show "start" .str), ("nodes", nodes),
    ("edges", flow.edges.show "edges" shownEdges)]

theorem typed_scopeParts {nodes : Entries Value} (flow : Flow)
    (own : nodes.names.Sublist ["nodes"]) :
    Typed ["start", "nodes", "edges"] (scopeParts flow nodes) where
  labels := rfl
  distinct := by decide
  own := by
    simp only [scopeParts, List.forall_mem_cons]
    exact ⟨names_show _ _ _, own, names_show _ _ _, nofun⟩

theorem scopePayload_eq_ok_iff {v : Value} :
    scopePayload flow = .ok v ↔ ∃ nodes others, flow.nodes.showM "nodes" shownEntries = .ok nodes ∧
      plainFields flow.others = .ok others ∧
      .record ([] ++ (scopeParts flow nodes).flatMap Prod.snd ++ others) = v := by
  have fields (nodes others : Entries Value) :
      [] ++ (scopeParts flow nodes).flatMap Prod.snd ++ others =
        flow.start.show "start" .str ++ nodes ++ flow.edges.show "edges" shownEdges ++ others := by
    simp [scopeParts]
  simp only [fields]
  obtain ⟨start, nodes, edges, rest⟩ := flow
  rw [scopePayload, shownNodes_eq]
  constructor
  · intro h
    obtain ⟨seg, shows, h⟩ := bind_eq_ok_iff.mp h
    obtain ⟨others, plain, h⟩ := bind_eq_ok_iff.mp h
    exact ⟨seg, others, shows, plain, Except.ok.inj h⟩
  · rintro ⟨seg, others, shows, plain, rfl⟩
    rw [shows, plain]
    rfl

/-- The typed fields of a node as they are shown, most of them being shown already. -/
def nodeParts (spec : NodeSpec) (post cases subflow : Entries Value) :
    List (String × Entries Value) :=
  [("post", post), ("choice_cases", cases),
    ("default_action", spec.defaultAction.show "default_action" .str), ("subflow", subflow)]

theorem typed_nodeParts {post cases subflow : Entries Value} (spec : NodeSpec)
    (ownPost : post.names.Sublist ["post"]) (ownCases : cases.names.Sublist ["choice_cases"])
    (ownSubflow : subflow.names.Sublist ["subflow"]) :
    Typed ["post", "choice_cases", "default_action", "subflow"]
      (nodeParts spec post cases subflow) where
  labels := rfl
  distinct := by decide
  own := by
    simp only [nodeParts, List.forall_mem_cons]
    exact ⟨ownPost, ownCases, names_show _ _ _, ownSubflow, nofun⟩

theorem payload_eq_ok_iff {fields : Entries Value} :
    spec.payload = .ok fields ↔ ∃ first post cases subflow last,
      plainFields (spec.others.among NodeSpec.leading) = .ok first ∧
      spec.post.showM "post" PostRules.payload = .ok post ∧
      spec.cases.showM "choice_cases" shownCases = .ok cases ∧
      spec.subflow.showM "subflow" scopePayload = .ok subflow ∧
      plainFields (spec.others.among NodeSpec.trailing ++
        spec.others.outside (NodeSpec.leading ++ NodeSpec.trailing)) = .ok last ∧
      first ++ (nodeParts spec post cases subflow).flatMap Prod.snd ++ last = fields := by
  have whole (first post cases subflow last : Entries Value) :
      first ++ (nodeParts spec post cases subflow).flatMap Prod.snd ++ last =
        first ++ post ++ cases ++ spec.defaultAction.show "default_action" .str ++ subflow ++
          last := by
    simp [nodeParts]
  simp only [whole]
  obtain ⟨post, cases', defaultAction, subflow, others⟩ := spec
  rw [NodeSpec.payload, shownScope_eq]
  constructor
  · intro h
    obtain ⟨first, leading, h⟩ := bind_eq_ok_iff.mp h
    obtain ⟨post, shownPost, h⟩ := bind_eq_ok_iff.mp h
    obtain ⟨cases', shownCases, h⟩ := bind_eq_ok_iff.mp h
    obtain ⟨subflow, shownSubflow, h⟩ := bind_eq_ok_iff.mp h
    obtain ⟨last, trailing, h⟩ := bind_eq_ok_iff.mp h
    exact ⟨first, post, cases', subflow, last, leading, shownPost, shownCases, shownSubflow,
      trailing, Except.ok.inj h⟩
  · rintro ⟨first, post, cases', subflow, last, leading, shownPost, shown, shownSubflow, trailing,
      rfl⟩
    unfold shownCases at shown
    rw [leading, shownPost, shown, shownSubflow, trailing]
    rfl

end

end FlowDiagram.Definition
