import FlowDiagram.Proofs.Definition.Leniency
import FlowDiagram.Proofs.Definition.Shown
/-!
# Reading what is shown

What is shown of a node is a node again, and the same is shown of it (`payload_again`). If the node
is read from JSON with finite numbers only, it comes back as it was, up to the order of the fields
that are known (`NodeSpec.Matches`): dropped fields are shown as null and dropped again, and
targets, edges and nodes are shown in a form that is read as the same ones.

`Returns` says this of any part of a definition. A typed field returns if what it holds does
(`showM_again`), and so does a list if its elements do (`items_return`). Nodes hold scopes and
scopes hold nodes, so both return by induction on the size of the value that they are read from
(`flow_returns`, `node_returns`).
-/

namespace FlowDiagram.Definition

open Document

/-! ## Equal definitions -/

/-- Two fields are missing both, dropped both, or hold related values. -/
inductive Slot.Both {α : Type} (same : α → α → Prop) : Slot α → Slot α → Prop where
  | absent : Both same .absent .absent
  | dropped : Both same .dropped .dropped
  | given {a b : α} (related : same a b) : Both same (.given a) (.given b)

theorem Slot.Both.imp {α : Type} {same same' : α → α → Prop} {a b : Slot α}
    (both : Slot.Both same a b) (weaker : ∀ a b, same a b → same' a b) : Slot.Both same' a b := by
  cases both with
  | absent => exact .absent
  | dropped => exact .dropped
  | given related => exact .given (weaker _ _ related)

/-- Rules that are equal up to the order of their known fields. -/
structure PostRules.Matches (a b : PostRules) : Prop where
  actionStatic : a.actionStatic = b.actionStatic
  actionMap : a.actionMap = b.actionMap
  others : Entries.SameButOrder PostRules.known a.others b.others

/-- Cases that are equal up to the order of their known fields. -/
structure Case.Matches (a b : Case) : Prop where
  action : a.action = b.action
  others : Entries.SameButOrder Case.known a.others b.others

mutual

/-- Nodes that are equal up to the order of their known fields, at every depth. -/
inductive NodeSpec.Matches : NodeSpec → NodeSpec → Prop where
  | intro {a b : NodeSpec} (post : Slot.Both PostRules.Matches a.post b.post)
      (cases : Slot.Both (List.Forall₂ Case.Matches) a.cases b.cases)
      (defaultAction : a.defaultAction = b.defaultAction)
      (subflow : Slot.Both Flow.Matches a.subflow b.subflow)
      (others : Entries.SameButOrder (NodeSpec.leading ++ NodeSpec.trailing) a.others b.others) :
      NodeSpec.Matches a b

/-- Scopes that are equal up to the order of the known fields of their nodes. -/
inductive Flow.Matches : Flow → Flow → Prop where
  | intro {a b : Flow} (start : a.start = b.start)
      (nodes : Slot.Both (List.Forall₂ EntryMatches) a.nodes b.nodes) (edges : a.edges = b.edges)
      (others : a.others = b.others) : Flow.Matches a b

inductive EntryMatches : String × NodeSpec → String × NodeSpec → Prop where
  | intro {key : String} {a b : NodeSpec} (spec : NodeSpec.Matches a b) :
      EntryMatches (key, a) (key, b)

end

/-! ## Records -/

/-- The entries of a record. -/
def written (fields : Entries Value) : List (Value × Value) := fields.map fun e => (.str e.1, e.2)

section

variable {α : Type} {fields : Entries Value} {es : List (Value × Value)} {name : String} {v : Value}
variable {names : List String}

theorem textual_written (fields : Entries Value) : Textual (written fields) :=
  List.forall_mem_map.mpr fun e _ => ⟨e.1, rfl⟩

theorem slotOf_written (fields : Entries Value) (name : String) (read : Value → Option α) :
    slotOf (written fields) name read = (fields.get? name).elim .absent (.ofOption ∘ read) := by
  rw [← Value.get?_record]
  rfl

theorem slotOf_eq_given_iff {read : Value → Option α} {a : α} :
    slotOf es name read = .given a ↔ ∃ v, (Value.map es).get? name = some v ∧ read v = some a := by
  rw [slotOf, fieldOf]
  cases (Value.map es).get? name with
  | none => simp
  | some v => cases found : read v <;> simp [Slot.ofOption, found]

theorem slotOf_ne_dropped {read : Value → Option α} (accepted : Accepted es name read) :
    slotOf es name read ≠ .dropped := by
  rw [slotOf, fieldOf]
  cases found : (Value.map es).get? name with
  | none => exact nofun
  | some v =>
      obtain ⟨a, same⟩ := accepted v (mem_of_get? found)
      simp [Slot.ofOption, same]

theorem fieldsBeside_written (names : List String) (fields : Entries Value) :
    fieldsBeside names (written fields) = fields.outside names := by
  induction fields with
  | nil => rfl
  | cons e rest ih =>
      obtain ⟨n, v⟩ := e
      change fieldsBeside names ((.str n, v) :: written rest) = _
      rw [fieldsBeside_cons, ih]
      by_cases known : n ∈ names <;> simp [Entries.outside, known]

theorem mem_of_mem_fieldsBeside {e : String × Value} (member : e ∈ fieldsBeside names es) :
    e.1 ∉ names ∧ (.str e.1, e.2) ∈ es := by
  obtain ⟨⟨k, v⟩, listed, kept⟩ := List.mem_filterMap.mp member
  cases k with
  | str n =>
      dsimp only at kept
      split at kept
      · contradiction
      · next other =>
          cases kept
          exact ⟨other, listed⟩
  | _ => contradiction

theorem not_mem_of_mem_names_fieldsBeside :
    ∀ n ∈ (fieldsBeside names es).names, n ∉ names :=
  List.forall_mem_map.mpr fun _ member => (mem_of_mem_fieldsBeside member).1

end

/-! ## Fields -/

section

variable {α : Type} {slot : Slot α} {name n : String} {fields seg : Entries Value}
variable {read : Value → Option α}

/-- A field that is shown by itself is read as it was. -/
theorem slotOf_show {f : α → Value} (stands : Stands name (slot.show name f) fields)
    (dropped : read .null = none) (each : ∀ a, slot = .given a → read (f a) = some a) :
    slotOf (written fields) name read = slot := by
  rw [slotOf_written, stands.found]
  cases slot with
  | absent => rfl
  | dropped => simp [Slot.show, Entries.get?_cons, Slot.ofOption, dropped]
  | given a => simp [Slot.show, Entries.get?_cons, Slot.ofOption, each a rfl]

/-- What is written of something is read, as something that is written alike. -/
def Returns {β : Type} (read : β → Option α) (write : α → Except BadBytes β) (same : α → α → Prop)
    (a : α) : Prop :=
  ∀ shown, write a = .ok shown → ∃ b, read shown = some b ∧ write b = .ok shown ∧ same b a

theorem Returns.imp {β : Type} {read : β → Option α} {write : α → Except BadBytes β}
    {same same' : α → α → Prop} {a : α} (returns : Returns read write same a)
    (weaker : ∀ b, same b a → same' b a) : Returns read write same' a := by
  intro shown shows
  obtain ⟨b, found, again, related⟩ := returns shown shows
  exact ⟨b, found, again, weaker b related⟩

/-- Of a list whose elements return, each is read again in its place. -/
theorem items_return {β : Type} {read : β → Option α} {write : α → Except BadBytes β}
    {same : α → α → Prop} {as : List α} {shown : List β}
    (each : ∀ a ∈ as, Returns read write same a) (shows : as.mapM write = .ok shown) :
    ∃ bs, List.Forall₂ (fun v b => read v = some b) shown bs ∧ bs.mapM write = .ok shown ∧
      List.Forall₂ same bs as := by
  simp only [mapM_eq_ok_iff] at shows ⊢
  induction shows with
  | nil => exact ⟨[], .nil, .nil, .nil⟩
  | @cons a v as shown own later ih =>
      obtain ⟨first, others⟩ := List.forall_mem_cons.mp each
      obtain ⟨bs, found, again, related⟩ := ih others
      obtain ⟨b, foundFirst, againFirst, relatedFirst⟩ := first v own
      exact ⟨b :: bs, .cons foundFirst found, .cons againFirst again, .cons relatedFirst related⟩

/-- A field of a record that is shown by itself comes back. -/
theorem showM_again {write : α → Except BadBytes Value} {same : α → α → Prop}
    (shows : slot.showM name write = .ok seg) (stands : Stands name seg fields)
    (dropped : slot = .dropped → read .null = none)
    (each : ∀ a, slot = .given a → Returns read write same a) :
    (slotOf (written fields) name read).showM name write = .ok seg ∧
      Slot.Both same (slotOf (written fields) name read) slot := by
  rw [slotOf_written, stands.found]
  cases slot with
  | absent =>
      cases shows
      exact ⟨rfl, .absent⟩
  | dropped =>
      cases shows
      simp only [Entries.get?_cons, if_pos, Option.elim_some, Function.comp_apply, dropped,
        Slot.ofOption]
      exact ⟨rfl, .dropped⟩
  | given a =>
      obtain ⟨v, own, rfl⟩ := map_eq_ok_iff.mp shows
      obtain ⟨b, found, again, related⟩ := each a rfl v own
      simp only [Entries.get?_cons, if_pos, Option.elim_some, Function.comp_apply, found,
        Slot.ofOption]
      exact ⟨map_eq_ok_iff.mpr ⟨v, again, rfl⟩, .given related⟩

end

/-! ## Rules, cases and edges -/

section

variable {es : List (Value × Value)} {others : Entries Value} {names : List String}

theorem nodup_names_targets (es : List (Value × Value)) : (targets es).names.Nodup := by
  have sublist (labels : Entries (Option String)) :
      List.Sublist (Entries.names (labels.filterMap fun e => e.2.map (e.1, ·))) labels.names := by
    induction labels with
    | nil => exact .slnil
    | cons e rest ih =>
        obtain ⟨label, _ | target⟩ := e
        · exact ih.cons label
        · exact ih.cons_cons label
  exact (Entries.nodup_names_ofList _).sublist (sublist _)

theorem targets_shown {labels : Entries String} (distinct : labels.names.Nodup) :
    targets? (shownTargets labels) = some labels := by
  have read : (written (labels.map fun e => (e.1, .str e.2))).map
      (fun e => (referenceText e.1, reference? e.2)) = labels.map fun e => (e.1, some e.2) := by
    rw [written, List.map_map, List.map_map]
    rfl
  have apart : Entries.names (labels.map fun e => (e.1, some e.2)) = labels.names := by
    rw [Entries.names, List.map_map]
    rfl
  have whole : targets (written (labels.map fun e => (e.1, .str e.2))) = labels := by
    change List.filterMap _ (Entries.ofList (List.map _ _)) = labels
    rw [read, Entries.ofList_eq_self (apart ▸ distinct), List.filterMap_map]
    exact List.filterMap_some
  exact congrArg some whole

/-- Fields beside the typed ones of a mapping have other names. -/
theorem not_mem_names_others (kept : others.names ⊆ (fieldsBeside names es).names) :
    ∀ n ∈ others.names, n ∉ names :=
  fun n here => not_mem_of_mem_names_fieldsBeside n (kept here)

theorem strict_of_mem_fieldsBeside (strict : (Value.map es).Strict) :
    ∀ e ∈ fieldsBeside names es, e.2.Strict :=
  fun _ member => strict.of_mem (mem_of_mem_fieldsBeside member).2

theorem rules_return (es : List (Value × Value)) :
    Returns rules? PostRules.payload
      (fun b a => (Value.map es).Strict → PostRules.Matches b a) (rulesOf es) := by
  intro shown h
  obtain ⟨others, plain, rfl⟩ := PostRules.payload_eq_ok_iff.mp h
  have kept := shownFields_of_arrange (by decide) plain
  have apart := not_mem_names_others kept.names
  have stands {n : String} {seg : Entries Value} (member : (n, seg) ∈ (rulesOf es).parts) :=
    (rulesOf es).typed_parts.stands [] nofun apart member
  have targets (labels : Entries String) (given : (rulesOf es).actionMap = .given labels) :
      targets? (shownTargets labels) = some labels := by
    obtain ⟨v, -, read⟩ := slotOf_eq_given_iff.mp given
    cases v with
    | map es => exact targets_shown (Option.some.inj read ▸ nodup_names_targets es)
    | _ => contradiction
  have again : rulesOf (written ([] ++ (rulesOf es).parts.flatMap Prod.snd ++ others)) =
      { rulesOf es with others } := by
    rw [rulesOf, slotOf_show (stands (.head _)) rfl fun _ _ => rfl,
      slotOf_show (stands (.tail _ (.head _))) rfl targets,
      fieldsBeside_written, (rulesOf es).typed_parts.outside [] nofun apart]
    rfl
  refine ⟨_, congrArg some again, ?_, fun strict => ⟨rfl, rfl, ?_⟩⟩
  · refine PostRules.payload_eq_ok_iff.mpr ⟨others, ?_, rfl⟩
    exact kept.arranged.symm ▸ kept.plain
  · exact kept.strict (strict_of_mem_fieldsBeside strict)

/-- A case, if it is given as a mapping. -/
def case? : Value → Option Case
  | .map es => some (caseOf es)
  | _ => none

theorem case_return (es : List (Value × Value)) :
    Returns case? Case.payload
      (fun b a => (Value.map es).Strict → Case.Matches b a) (caseOf es) := by
  intro shown h
  obtain ⟨others, plain, rfl⟩ := Case.payload_eq_ok_iff.mp h
  have kept := shownFields_of_arrange (by decide) plain
  have apart := not_mem_names_others kept.names
  have stands := (caseOf es).typed_parts.stands [] nofun apart (.head _)
  have again : caseOf (written ([] ++ (caseOf es).parts.flatMap Prod.snd ++ others)) =
      { caseOf es with others } := by
    rw [caseOf, slotOf_show stands rfl fun _ _ => rfl,
      fieldsBeside_written, (caseOf es).typed_parts.outside [] nofun apart]
    rfl
  refine ⟨_, congrArg some again, ?_, fun strict => ⟨rfl, ?_⟩⟩
  · refine Case.payload_eq_ok_iff.mpr ⟨others, ?_, rfl⟩
    exact kept.arranged.symm ▸ kept.plain
  · exact kept.strict (strict_of_mem_fieldsBeside strict)

theorem cases?_of_each {items : List Value} {cs : List Case}
    (each : List.Forall₂ (fun v c => case? v = some c) items cs) :
    cases? (.seq items) = some cs := by
  induction each with
  | nil => rfl
  | @cons v c items cs own later ih =>
      cases v with
      | map es =>
          have others := Option.some.inj ih
          cases own
          exact congrArg (fun rest => some (caseOf es :: rest)) others
      | _ => contradiction

theorem cases_return {v : Value} {cs : List Case} (read : cases? v = some cs) :
    Returns cases? shownCases
      (fun b a => v.Strict → List.Forall₂ Case.Matches b a) cs := by
  intro shown h
  obtain ⟨items, each, rfl⟩ := map_eq_ok_iff.mp h
  cases v with
  | seq sources =>
      obtain rfl := Option.some.inj read
      have own : ∀ c ∈ (sources.filter Value.isMap).map (caseOf ·.entries),
          Returns case? Case.payload (fun b a => (Value.seq sources).Strict → b.Matches a) c := by
        intro c member
        obtain ⟨source, listed, rfl⟩ := List.mem_map.mp member
        obtain ⟨listed, mapping⟩ := List.mem_filter.mp listed
        cases source with
        | map es =>
            exact (case_return es).imp fun _ related strict => related (strict.of_item listed)
        | _ => contradiction
      obtain ⟨bs, found, again, related⟩ := items_return own each
      refine ⟨bs, cases?_of_each found, map_eq_ok_iff.mpr ⟨items, again, rfl⟩, fun strict => ?_⟩
      exact related.imp fun _ _ matched => matched strict
  | _ => contradiction

theorem edgeEntry_shown (e : EdgeEntry) : EdgeEntry.ofValue e.payload = e := by
  obtain ⟨source, target, action⟩ := e
  cases source <;> cases target <;> cases action <;> rfl

/-- Edges are read as they are shown. -/
theorem edges?_shown (es : List EdgeEntry) : edges? (shownEdges es) = some es := by
  have mappings : (es.map EdgeEntry.payload).filter Value.isMap = es.map EdgeEntry.payload :=
    List.filter_eq_self.mpr (List.forall_mem_map.mpr fun _ _ => rfl)
  have each : (es.map EdgeEntry.payload).map EdgeEntry.ofValue = es := by
    rw [List.map_map]
    exact List.map_id'' edgeEntry_shown es
  rw [shownEdges, edges?, mappings, each]

end

/-! ## What can be read again -/

section

variable {α : Type} {slot : Slot α} {name n : String} {fields seg : Entries Value} {v : Value}

theorem mem_written : (.str n, v) ∈ written fields ↔ (n, v) ∈ fields := by
  simp [written]

/-- What a record holds under the name of a typed field is accepted there. -/
theorem accepted_of_showM {write : α → Except BadBytes Value} {β : Type} {accept : Value → Option β}
    (shows : slot.showM name write = .ok seg) (stands : Stands name seg fields)
    (dropped : ∃ b, accept .null = some b)
    (each : ∀ a, slot = .given a → ∀ v, write a = .ok v → ∃ b, accept v = some b) :
    Accepted (written fields) name accept := by
  intro v listed
  have member := stands.inside v (mem_written.mp listed)
  cases slot with
  | absent =>
      cases shows
      contradiction
  | dropped =>
      cases shows
      obtain ⟨-, rfl⟩ := Prod.mk.inj (List.mem_singleton.mp member)
      exact dropped
  | given a =>
      obtain ⟨w, own, rfl⟩ := map_eq_ok_iff.mp shows
      obtain ⟨-, rfl⟩ := Prod.mk.inj (List.mem_singleton.mp member)
      exact each a rfl v own

/-- Rules are shown as a mapping with texts for keys. -/
theorem exists_postField?_of_payload {rules : PostRules} (shows : rules.payload = .ok v) :
    ∃ field, postField? v = some field := by
  obtain ⟨others, -, rfl⟩ := PostRules.payload_eq_ok_iff.mp shows
  exact exists_postField?_iff.mpr fun es same => Value.map.inj same ▸ textual_written _

theorem exists_casesField?_of_payloads {cs : List Case} {items : List Value}
    (shows : cs.mapM Case.payload = .ok items) :
    ∃ field, casesField? (.seq items) = some field := by
  refine exists_casesField?_iff.mpr fun items' same es member => ?_
  obtain rfl := Value.seq.inj same
  obtain ⟨c, -, own⟩ := exists_of_mapM_eq_ok shows _ member
  obtain ⟨others, -, same⟩ := Case.payload_eq_ok_iff.mp own
  exact Value.map.inj same ▸ textual_written _

end

/-! ## Nodes in a scope -/

/-- A node of a scope, read under its key. -/
def entry? (e : String × Value) : Option (String × NodeSpec) := (node? e.2).map (e.1, ·)

section

variable {specs : Entries NodeSpec} {es : Entries Value} {v : Value}

theorem nodes?_of_each (distinct : es.names.Nodup)
    (each : List.Forall₂ (fun e b => entry? e = some b) es specs) :
    nodes? (.record es) = some specs := by
  have read : nodeEntries (es.map fun e => (.str e.1, e.2)) = es.map fun e => (e.1, node? e.2) := by
    rw [nodeEntries_eq, List.map_map, List.map_map]
    rfl
  have apart : Entries.names (es.map fun e => (e.1, node? e.2)) = es.names := by
    rw [Entries.names, List.map_map]
    rfl
  rw [Value.record, nodes?, read, Entries.ofList_eq_self (apart ▸ distinct)]
  clear distinct read apart
  induction each with
  | nil => rfl
  | cons own later ih =>
      obtain ⟨spec, found, rfl⟩ := Option.map_eq_some_iff.mp own
      rw [List.map_cons, found, accepted?, ih]
      rfl

theorem exists_mem_of_nodes? {ns : List (Value × Value)} (read : nodes? (.map ns) = some specs)
    {e : String × NodeSpec} (member : e ∈ specs) : ∃ s ∈ ns, node? s.2 = some e.2 := by
  have kept := (names_of_accepted? read).2 e member
  have listed := Entries.mem_of_mem_ofList kept
  rw [nodeEntries_eq, List.map_map] at listed
  obtain ⟨s, member, same⟩ := List.mem_map.mp listed
  exact ⟨s, member, (Prod.mk.inj same).2⟩

theorem nodes_return (read : nodes? v = some specs)
    (each : ∀ ns, v = .map ns → ∀ s ∈ ns, ∀ spec, node? s.2 = some spec →
      Returns node? shownNode (fun b a => s.2.Strict → b.Matches a) spec) :
    Returns nodes? shownEntries (fun b a => v.Strict → List.Forall₂ EntryMatches b a) specs := by
  intro shown h
  obtain ⟨es, shows, rfl⟩ := map_eq_ok_iff.mp h
  have own : ∀ entry ∈ specs, Returns entry? entryPayload
      (fun b a => v.Strict → EntryMatches b a) entry := by
    intro entry member e shown
    obtain ⟨w, alone, rfl⟩ := map_eq_ok_iff.mp shown
    cases v with
    | null =>
        cases read
        contradiction
    | map ns =>
        obtain ⟨s, listed, found⟩ := exists_mem_of_nodes? read member
        obtain ⟨b, read, again, related⟩ := each ns rfl s listed entry.2 found w alone
        refine ⟨(entry.1, b), congrArg (Option.map _) read, congrArg (Except.map _) again, ?_⟩
        exact fun strict => .intro (related (strict.of_mem listed))
    | _ => contradiction
  have distinct : (Entries.names es).Nodup :=
    names_of_payloads shows ▸ (keyed_of_nodes? v read).1
  rw [payloads_eq_mapM] at shows
  obtain ⟨bs, found, again, related⟩ := items_return own shows
  refine ⟨bs, nodes?_of_each distinct found, ?_, fun strict => ?_⟩
  · rw [shownEntries, payloads_eq_mapM, again]
    rfl
  · exact related.imp fun _ _ matched => matched strict

end

/-! ## Scopes and nodes -/

section

variable {es : List (Value × Value)} {flow : Flow} {spec : NodeSpec}

/-- The scope inside a node is read as a flow is. -/
theorem subflow_nodeOf (es : List (Value × Value)) :
    (nodeOf es).subflow = slotOf es "subflow" Flow.ofValue? := by
  have read (v : Value) : (subflowField? v).getD .dropped = .ofOption (Flow.ofValue? v) := by
    cases v with
    | map inner =>
        rw [subflowField?, Flow.ofValue?]
        cases scopeOf? inner <;> rfl
    | _ => rfl
  exact congrArg (fieldOf es "subflow") (funext read)

theorem exists_subflowField?_of_flow {v : Value} (found : Flow.ofValue? v = some flow) :
    ∃ field, subflowField? v = some field := by
  cases v with
  | map inner => exact ⟨_, congrArg (Option.map Slot.given) found⟩
  | _ => contradiction

theorem scope_return (read : scopeOf? es = some flow)
    (inside : ∀ specs, flow.nodes = .given specs → Returns nodes? shownEntries
      (fun b a => (Value.map es).Strict → List.Forall₂ EntryMatches b a) specs) :
    Returns Flow.ofValue? scopePayload
      (fun b a => (Value.map es).Strict → Flow.Matches b a) flow := by
  intro shown h
  obtain ⟨-, accepted, -, rfl⟩ := scopeOf?_eq_some_iff.mp read
  obtain ⟨nodes, others, shows, plain, rfl⟩ := scopePayload_eq_ok_iff.mp h
  have kept : others.names ⊆ (fieldsBeside ["start", "nodes", "edges"] es).names :=
    names_of_plainFields plain ▸ List.Subset.refl _
  have apart := not_mem_names_others kept
  have typed := typed_scopeParts (scopeWith es) (names_showM shows)
  generalize whole : [] ++ (scopeParts (scopeWith es) nodes).flatMap Prod.snd ++ others = fields
  have stands {n : String} {seg : Entries Value}
      (member : (n, seg) ∈ scopeParts (scopeWith es) nodes) : Stands n seg fields :=
    whole ▸ typed.stands [] nofun apart member
  have inNodes : Stands "nodes" nodes fields := stands (.tail _ (.head _))
  have inEdges : Stands "edges" ((scopeWith es).edges.show "edges" shownEdges) fields :=
    stands (.tail _ (.tail _ (.head _)))
  obtain ⟨again, related⟩ := showM_again shows inNodes
    (fun dropped => absurd dropped (slotOf_ne_dropped accepted)) inside
  have rewritten : scopeWith (written fields) =
      { scopeWith es with nodes := slotOf (written fields) "nodes" nodes?, others } := by
    rw [scopeWith, slotOf_show (stands (.head _)) rfl fun _ _ => rfl,
      slotOf_show inEdges rfl fun es _ => edges?_shown es, ← whole,
      fieldsBeside_written, typed.outside [] nofun apart]
    rfl
  refine ⟨_, scopeOf?_eq_some_iff.mpr ⟨textual_written _, ?_, ?_, rewritten⟩, ?_, fun strict =>
    .intro rfl (related.imp fun _ _ matched => matched strict) rfl ?_⟩
  · refine accepted_of_showM shows inNodes ⟨_, rfl⟩ fun specs given v own => ?_
    obtain ⟨b, found, -, -⟩ := inside specs given v own
    exact ⟨b, found⟩
  · refine accepted_of_showM (showM_ok _ _ _) inEdges ⟨_, rfl⟩ fun es _ v own => ?_
    obtain rfl := Except.ok.inj own
    exact ⟨_, rfl⟩
  · exact scopePayload_eq_ok_iff.mpr
      ⟨nodes, others, again, plainFields_of_plainFields plain, congrArg Value.record whole⟩
  · exact eq_of_plainFields plain (strict_of_mem_fieldsBeside strict)

theorem post_return {rules : PostRules} (given : (nodeOf es).post = .given rules) :
    Returns rules? PostRules.payload (fun b a => (Value.map es).Strict → b.Matches a) rules := by
  obtain ⟨v, found, read⟩ := slotOf_eq_given_iff.mp given
  cases v with
  | map fields =>
      obtain rfl := Option.some.inj read
      exact (rules_return fields).imp fun _ related strict => related (strict.of_get? found)
  | _ => contradiction

theorem choice_return {cs : List Case} (given : (nodeOf es).cases = .given cs) :
    Returns cases? shownCases
      (fun b a => (Value.map es).Strict → List.Forall₂ Case.Matches b a) cs := by
  obtain ⟨v, found, read⟩ := slotOf_eq_given_iff.mp given
  exact (cases_return read).imp fun _ related strict => related (strict.of_get? found)

theorem node_return (read : specOf? es = some spec)
    (inside : ∀ flow, spec.subflow = .given flow → Returns Flow.ofValue? scopePayload
      (fun b a => (Value.map es).Strict → Flow.Matches b a) flow) :
    Returns node? shownNode (fun b a => (Value.map es).Strict → NodeSpec.Matches b a) spec := by
  intro shown h
  obtain ⟨fields, shows, rfl⟩ := map_eq_ok_iff.mp h
  obtain ⟨-, -, -, -, rfl⟩ := specOf?_eq_some_iff.mp read
  obtain ⟨first, post, cases', subflow, last, leading, ownPost, ownCases, ownSubflow, trailing,
    whole⟩ := payload_eq_ok_iff.mp shows
  obtain ⟨kept, front, back⟩ := shownFields_of_parts (by decide) leading trailing
  have apart := not_mem_names_others kept.names
  rw [Entries.names_append, List.forall_mem_append] at apart
  obtain ⟨before, behind⟩ := apart
  have typed := typed_nodeParts (nodeOf es) (names_showM ownPost) (names_showM ownCases)
    (names_showM ownSubflow)
  have stands {n : String} {seg : Entries Value}
      (member : (n, seg) ∈ nodeParts (nodeOf es) post cases' subflow) : Stands n seg fields :=
    whole ▸ typed.stands first before behind member
  -- Whatever else the node says, each typed field is read from its own part.
  have inPost : Stands "post" post fields := stands (.head _)
  have inCases : Stands "choice_cases" cases' fields := stands (.tail _ (.head _))
  have inSubflow : Stands "subflow" subflow fields :=
    stands (.tail _ (.tail _ (.tail _ (.head _))))
  obtain ⟨againPost, relatedPost⟩ := showM_again ownPost inPost (fun _ => rfl)
    fun rules given => post_return given
  obtain ⟨againCases, relatedCases⟩ := showM_again ownCases inCases (fun _ => rfl)
    fun cs given => choice_return given
  obtain ⟨againSubflow, relatedSubflow⟩ := showM_again ownSubflow inSubflow (fun _ => rfl) inside
  rw [← subflow_nodeOf] at againSubflow relatedSubflow
  have action : (nodeOf (written fields)).defaultAction = (nodeOf es).defaultAction :=
    slotOf_show (f := .str) (stands (.tail _ (.tail _ (.head _)))) rfl fun _ _ => rfl
  have others : (nodeOf (written fields)).others = first ++ last :=
    (fieldsBeside_written _ fields).trans (whole ▸ typed.outside first before behind)
  refine ⟨_, specOf?_eq_some_iff.mpr ⟨textual_written _, ?_, ?_, ?_, rfl⟩, ?_, fun strict =>
    .intro (relatedPost.imp fun _ _ matched => matched strict)
      (relatedCases.imp fun _ _ matched => matched strict) action
      (relatedSubflow.imp fun _ _ matched => matched strict)
      (others ▸ kept.strict (strict_of_mem_fieldsBeside strict))⟩
  · exact accepted_of_showM ownPost inPost ⟨_, rfl⟩
      fun _ _ _ own => exists_postField?_of_payload own
  · refine accepted_of_showM ownCases inCases ⟨_, rfl⟩ fun _ _ _ own => ?_
    obtain ⟨items, each, rfl⟩ := map_eq_ok_iff.mp own
    exact exists_casesField?_of_payloads each
  · refine accepted_of_showM ownSubflow inSubflow ⟨_, rfl⟩ fun flow given v own => ?_
    obtain ⟨b, found, -, -⟩ := inside flow given v own
    exact exists_subflowField?_of_flow found
  · refine congrArg (Except.map Value.record) (payload_eq_ok_iff.mpr
      ⟨first, post, cases', subflow, last, ?_, againPost, againCases, againSubflow, ?_, ?_⟩)
    · rw [others, front]
      exact plainFields_of_plainFields leading
    · rw [others, back]
      exact plainFields_of_plainFields trailing
    · rw [nodeParts, action]
      exact whole

end

mutual

theorem flow_returns (es : List (Value × Value)) {flow : Flow} (read : scopeOf? es = some flow) :
    Returns Flow.ofValue? scopePayload
      (fun b a => (Value.map es).Strict → Flow.Matches b a) flow := by
  refine scope_return read fun specs given => ?_
  obtain ⟨-, -, -, rfl⟩ := scopeOf?_eq_some_iff.mp read
  obtain ⟨v, found, readNodes⟩ := slotOf_eq_given_iff.mp given
  have each (ns : List (Value × Value)) (same : v = .map ns) (s : Value × Value) (listed : s ∈ ns)
      (spec : NodeSpec) (readNode : node? s.2 = some spec) :
      Returns node? shownNode (fun b a => s.2.Strict → b.Matches a) spec := by
    have smaller := sizeOf_lt_of_field (same ▸ mem_of_get? found)
    have inside := sizeOf_snd_lt_of_mem listed
    exact node_returns s.2 readNode
  exact (nodes_return readNodes each).imp fun _ related strict => related (strict.of_get? found)
termination_by sizeOf es

theorem node_returns (v : Value) {spec : NodeSpec} (read : node? v = some spec) :
    Returns node? shownNode (fun b a => v.Strict → NodeSpec.Matches b a) spec := by
  cases v with
  | null =>
      cases read
      intro shown shows
      obtain rfl := Except.ok.inj shows
      exact ⟨{}, rfl, rfl, fun _ => .intro .absent .absent rfl .absent ⟨fun _ => rfl, rfl⟩⟩
  | map es =>
      refine node_return read fun flow given => ?_
      obtain ⟨-, -, -, -, rfl⟩ := specOf?_eq_some_iff.mp read
      rw [subflow_nodeOf] at given
      obtain ⟨w, found, readFlow⟩ := slotOf_eq_given_iff.mp given
      cases w with
      | map inner =>
          have smaller := sizeOf_lt_of_field (mem_of_get? found)
          exact (flow_returns inner readFlow).imp fun _ related strict =>
            related (strict.of_get? found)
      | _ => contradiction
  | _ => contradiction
termination_by sizeOf v
decreasing_by
  subst v
  simp only [Value.map.sizeOf_spec]
  omega

end

/-! ## The round trip -/

theorem record_injective : Function.Injective Value.record := by
  intro fields fields' same
  refine List.map_injective_iff.mpr ?_ (Value.map.inj same)
  rintro ⟨n, v⟩ ⟨n', v'⟩ same
  obtain ⟨name, rfl⟩ := Prod.mk.inj same
  rw [Value.str.inj name]

/-- What is shown of a node is a node itself, of which the same is shown. A node from JSON comes
back as it was, at every depth. -/
theorem payload_again {v : Value} {spec : NodeSpec} {shown : Entries Value}
    (read : NodeSpec.ofValue? v = some spec) (shows : spec.payload = .ok shown) :
    ∃ again, NodeSpec.ofValue? (.record shown) = some again ∧ again.payload = .ok shown ∧
      (v.Strict → NodeSpec.Matches again spec) := by
  cases v with
  | map es =>
      obtain ⟨again, found, same, related⟩ :=
        node_returns (.map es) read (.record shown) (congrArg (Except.map Value.record) shows)
      obtain ⟨fields, own, equal⟩ := map_eq_ok_iff.mp same
      obtain rfl := record_injective equal
      exact ⟨again, found, own, related⟩
  | _ => contradiction

/-- A node with a scope and rules, and a field of its own. -/
def branching : Value :=
  .record [("note", .str "late"), ("subflow", .record [("nodes", .record [("a", .null)]),
      ("edges", .seq [.record [("source", .str "a"), ("target", .str "b")], .null])]),
    ("kind", .str "subflow"),
    ("post", .record [("action_map", .record [("yes", .str "b")]), ("action_key", .str "x")]),
    ("choice_cases", .null)]

def branchingSpec : NodeSpec where
  post := .given { actionMap := .given [("yes", "b")], others := [("action_key", .str "x")] }
  cases := .dropped
  subflow := .given
    { nodes := .given [("a", {})]
      edges := .given [{ source := .given "a", target := .given "b" }] }
  others := [("note", .str "late"), ("kind", .str "subflow")]

def branchingFields : Entries Value :=
  [("kind", .str "subflow"),
    ("post", .record [("action_map", .record [("yes", .str "b")]), ("action_key", .str "x")]),
    ("choice_cases", .null), ("subflow", .record [("nodes", .record [("a", .record [])]),
      ("edges", .seq [.record [("from", .str "a"), ("to", .str "b")]])]), ("note", .str "late")]

theorem strict_branching : branching.Strict := by
  have text (s : String) : (Value.str s).Strict := .str s
  have nothing : Value.null.Strict := .null
  have nodes : (Value.record [("a", .null)]).Strict := .record (by decide) (by simp [nothing])
  have edge : (Value.record [("source", .str "a"), ("target", .str "b")]).Strict :=
    .record (by decide) (by simp [text])
  have edges : (Value.seq [.record [("source", .str "a"), ("target", .str "b")], .null]).Strict :=
    .seq (by simp [edge, nothing])
  have targets : (Value.record [("yes", .str "b")]).Strict := .record (by decide) (by simp [text])
  have subflow : (Value.record [("nodes", .record [("a", .null)]), ("edges",
      .seq [.record [("source", .str "a"), ("target", .str "b")], .null])]).Strict :=
    .record (by decide) (by simp [nodes, edges])
  have post : (Value.record [("action_map", .record [("yes", .str "b")]),
      ("action_key", .str "x")]).Strict := .record (by decide) (by simp [targets, text])
  exact .record (by decide) (by simp [text, nothing, subflow, post])

/-- A node that holds a scope: its edge says where it leads with other names, and what it holds
as null is shown as a node without fields. -/
theorem payload_again_branching :
    NodeSpec.ofValue? branching = some branchingSpec ∧
      branchingSpec.payload = .ok branchingFields ∧
      ∃ again, NodeSpec.ofValue? (.record branchingFields) = some again ∧
        again.payload = .ok branchingFields ∧ NodeSpec.Matches again branchingSpec := by
  have read : NodeSpec.ofValue? branching = some branchingSpec := rfl
  have shows : branchingSpec.payload = .ok branchingFields := rfl
  obtain ⟨again, found, same, related⟩ := payload_again read shows
  exact ⟨read, shows, again, found, same, related strict_branching⟩

end FlowDiagram.Definition
