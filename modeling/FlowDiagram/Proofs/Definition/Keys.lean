import FlowDiagram.Definition.Reading
import Mathlib.Data.List.Induction
import Mathlib.Data.List.Nodup
/-!
# Scopes with distinct keys

The nodes of a scope stand under keys, and a mapping has each key once. `Flow.Keyed` says
this of a flow and of every scope inside it, at any depth. Every flow that is read from a
document is keyed, also where the document writes one key in several ways.

A scope that a node embeds is smaller than the scope around it, which gives the induction
over nested scopes that `nestedInduction` states.
-/

namespace FlowDiagram.Definition

open Document

namespace Entries

variable {α : Type} {es : Entries α} {name : String} {value : α}

theorem mem_of_get? (found : es.get? name = some value) : (name, value) ∈ es := by
  obtain ⟨before, after, split, -⟩ := List.lookup_eq_some_iff.mp found
  exact split ▸ List.mem_append_right before List.mem_cons_self

/-- Under distinct names each entry is the one that is found under its name. -/
theorem get?_of_mem (distinct : es.names.Nodup) (member : (name, value) ∈ es) :
    es.get? name = some value := by
  induction es with
  | nil => exact absurd member List.not_mem_nil
  | cons e rest ih =>
      obtain ⟨n, v⟩ := e
      obtain ⟨fresh, distinct⟩ := List.nodup_cons.mp distinct
      rw [get?, List.lookup_cons]
      obtain first | later := List.mem_cons.mp member
      · cases first
        rw [beq_self_eq_true]
      · have other : name ≠ n := fun same =>
          fresh (List.mem_map.mpr ⟨(name, value), later, same⟩)
        rw [beq_false_of_ne other]
        exact ih distinct later

theorem nodup_names_write (distinct : es.names.Nodup) (name : String) (value : α) :
    (write name value es).names.Nodup := by
  rw [names_write]
  split
  · exact distinct
  · next fresh => exact List.nodup_append'.mpr ⟨distinct, List.nodup_singleton name, by simpa⟩

theorem mem_write {e : String × α} (member : e ∈ write name value es) :
    e = (name, value) ∨ e ∈ es := by
  induction es with
  | nil => exact .inl (List.mem_singleton.mp member)
  | cons first rest ih =>
      rw [write] at member
      split at member
      · next same =>
          obtain here | later := List.mem_cons.mp member
          · exact .inl (same ▸ here)
          · exact .inr (List.mem_cons_of_mem _ later)
      · obtain here | later := List.mem_cons.mp member
        · exact .inr (here ▸ List.mem_cons_self)
        · exact (ih later).imp_right (List.mem_cons_of_mem _)

/-- Writing keeps names distinct and adds nothing but what is written. -/
theorem foldl_write (es list : Entries α) (distinct : es.names.Nodup) :
    let written : Entries α := list.foldl (fun es (n, v) => write n v es) es
    written.names.Nodup ∧ ∀ e ∈ written, e ∈ es ∨ e ∈ list := by
  induction list generalizing es with
  | nil => exact ⟨distinct, fun e member => .inl member⟩
  | cons first rest ih =>
      obtain ⟨n, v⟩ := first
      obtain ⟨distinct', source⟩ := ih _ (nodup_names_write distinct n v)
      refine ⟨distinct', fun e member => ?_⟩
      obtain old | later := source e member
      · obtain rfl | old := mem_write old
        · exact .inr List.mem_cons_self
        · exact .inl old
      · exact .inr (List.mem_cons_of_mem _ later)

theorem nodup_names_ofList (list : List (String × α)) : (ofList list).names.Nodup :=
  (foldl_write [] list List.nodup_nil).1

theorem mem_of_mem_ofList {list : List (String × α)} {e : String × α}
    (member : e ∈ ofList list) : e ∈ list :=
  ((foldl_write [] list List.nodup_nil).2 e member).resolve_left List.not_mem_nil

theorem get?_cons (name n : String) (v : α) (rest : Entries α) :
    Entries.get? ((n, v) :: rest) name = if name = n then some v else rest.get? name := by
  rw [get?, List.lookup_cons]
  by_cases same : name = n
  · rw [same, beq_self_eq_true, if_pos rfl]
  · rw [beq_false_of_ne same, if_neg same, get?]

theorem get?_map {β : Type} (f : α → β) (es : Entries α) (name : String) :
    Entries.get? (es.map fun e => (e.1, f e.2)) name = (es.get? name).map f := by
  induction es with
  | nil => rfl
  | cons first rest ih =>
      obtain ⟨n, v⟩ := first
      rw [List.map_cons, get?_cons, get?_cons, ih]
      split <;> rfl

theorem get?_write (name' : String) :
    (write name value es).get? name' = if name' = name then some value else es.get? name' := by
  induction es with
  | nil => exact get?_cons name' name value []
  | cons first rest ih =>
      obtain ⟨n, v⟩ := first
      rw [write]
      split
      · next same =>
          rw [get?_cons, get?_cons, same]
          split <;> rfl
      · next other =>
          rw [get?_cons, get?_cons, ih]
          split
          · next here => rw [if_neg (here ▸ other)]
          · rfl

theorem ofList_append_singleton (list : List (String × α)) (name : String) (value : α) :
    ofList (list ++ [(name, value)]) = write name value (ofList list) := by
  rw [ofList, List.foldl_append]
  rfl

theorem write_of_not_mem {value : α} (fresh : name ∉ es.names) :
    write name value es = es ++ [(name, value)] := by
  induction es with
  | nil => rfl
  | cons first rest ih =>
      obtain ⟨other, fresh⟩ := not_or.mp (List.mem_cons.not.mp fresh)
      rw [write, if_neg (Ne.symm other), ih fresh, List.cons_append]

/-- Entries under different names stay as they are. -/
theorem ofList_eq_self (distinct : es.names.Nodup) : ofList es = es := by
  induction es using List.reverseRecOn with
  | nil => rfl
  | append_singleton rest last ih =>
      obtain ⟨n, v⟩ := last
      rw [names, List.map_append, List.nodup_append'] at distinct
      obtain ⟨others, -, apart⟩ := distinct
      rw [ofList_append_singleton, ih others]
      exact write_of_not_mem fun old => apart old List.mem_cons_self

/-- Of several values under one name the last one counts. -/
theorem get?_ofList (list : List (String × α)) (name : String) :
    (ofList list).get? name = list.reverse.lookup name := by
  induction list using List.reverseRecOn with
  | nil => rfl
  | append_singleton rest last ih =>
      obtain ⟨n, v⟩ := last
      rw [ofList_append_singleton, get?_write, ih, List.reverse_append]
      exact (get?_cons name n v rest.reverse).symm

/-- Names stand where they first appear. -/
theorem names_ofList (list : List (String × α)) :
    (ofList list).names = (list.map Prod.fst).eraseDups := by
  induction list using List.reverseRecOn with
  | nil => rfl
  | append_singleton rest last ih =>
      obtain ⟨n, v⟩ := last
      rw [ofList_append_singleton, names_write, ih, List.map_append, List.eraseDups_append]
      by_cases present : n ∈ rest.map Prod.fst <;>
        simp [present, List.removeAll, List.eraseDups_cons]

end Entries

/-- The scopes that the nodes of a flow hold, whatever the kinds of these nodes. -/
def Flow.bodies (flow : Flow) : List Flow :=
  flow.entries.filterMap fun entry => entry.2.subflow.value?

theorem Flow.mem_bodies {flow body : Flow} :
    body ∈ Flow.bodies flow ↔ ∃ entry ∈ flow.entries, entry.2.subflow.value? = some body :=
  List.mem_filterMap

/-- Every scope of a flow has its nodes under different keys. -/
inductive Flow.Keyed : Flow → Prop where
  | intro {flow : Flow} (distinct : flow.entries.names.Nodup)
      (inside : ∀ body ∈ Flow.bodies flow, Flow.Keyed body) : Flow.Keyed flow

variable {spec : NodeSpec} {flow body : Flow}

theorem NodeSpec.value?_of_embedded? (embeds : spec.embedded? = some body) :
    spec.subflow.value? = some body := by
  rw [NodeSpec.embedded?] at embeds
  split at embeds
  · exact embeds
  · contradiction

namespace Flow.Keyed

theorem distinct (keyed : Flow.Keyed flow) : flow.entries.names.Nodup := by
  cases keyed with
  | intro distinct inside => exact distinct

theorem embedded (keyed : Flow.Keyed flow) {entry : String × NodeSpec}
    (member : entry ∈ flow.entries) (embeds : entry.2.embedded? = some body) :
    Flow.Keyed body := by
  cases keyed with
  | intro distinct inside =>
      have held := NodeSpec.value?_of_embedded? embeds
      exact inside body (Flow.mem_bodies.mpr ⟨entry, member, held⟩)

end Flow.Keyed

/-! ## Induction over nested scopes -/

private theorem Scope.one_le_sizeOf (flow : Flow) : 1 ≤ sizeOf flow := by
  cases flow
  simp only [Scope.mk.sizeOf_spec]
  omega

theorem Scope.sizeOf_entries_le (flow : Flow) : sizeOf flow.entries ≤ sizeOf flow := by
  obtain ⟨start, nodes, edges, others⟩ := flow
  cases nodes with
  | given specs =>
      change sizeOf specs ≤ sizeOf (Scope.mk start (.given specs) edges others)
      simp only [Scope.mk.sizeOf_spec, Slot.given.sizeOf_spec]
      omega
  | absent => exact Scope.one_le_sizeOf _
  | dropped => exact Scope.one_le_sizeOf _

theorem NodeSpec.sizeOf_embedded?_lt (embeds : spec.embedded? = some body) :
    sizeOf body < sizeOf spec := by
  have held := NodeSpec.value?_of_embedded? embeds
  obtain ⟨post, cases', defaultAction, subflow, others⟩ := spec
  cases subflow with
  | given scope =>
      cases held
      simp only [NodeSpec.mk.sizeOf_spec, Slot.given.sizeOf_spec]
      omega
  | absent => contradiction
  | dropped => contradiction

/-- Induction over the nodes of a scope and of the scopes that they embed. -/
@[elab_as_elim]
theorem nestedInduction {motive : List (String × NodeSpec) → Prop} (nil : motive [])
    (plain : ∀ key spec rest, spec.embedded? = none → motive rest → motive ((key, spec) :: rest))
    (group : ∀ key spec rest body, spec.embedded? = some body → motive body.entries →
      motive rest → motive ((key, spec) :: rest)) : ∀ specs, motive specs
  | [] => nil
  | (key, spec) :: rest =>
      match embeds : spec.embedded? with
      | none => plain key spec rest embeds (nestedInduction nil plain group rest)
      | some body =>
          group key spec rest body embeds (nestedInduction nil plain group body.entries)
            (nestedInduction nil plain group rest)
termination_by specs => sizeOf specs
decreasing_by
  · simp only [List.cons.sizeOf_spec]
    omega
  · have inner := NodeSpec.sizeOf_embedded?_lt embeds
    have entries := Scope.sizeOf_entries_le body
    simp only [List.cons.sizeOf_spec, Prod.mk.sizeOf_spec]
    omega
  · simp only [List.cons.sizeOf_spec]
    omega

/-! ## Reading -/

/-- The scope that a node holds, whatever its kind, is keyed. -/
def NodeSpec.Keyed (spec : NodeSpec) : Prop :=
  ∀ body, spec.subflow.value? = some body → Flow.Keyed body

theorem names_of_accepted? {α : Type} {es : Entries (Option α)} {kept : Entries α}
    (h : accepted? es = some kept) :
    kept.names = es.names ∧ ∀ e ∈ kept, (e.1, some e.2) ∈ es := by
  induction es generalizing kept with
  | nil =>
      cases h
      exact ⟨rfl, fun e member => absurd member List.not_mem_nil⟩
  | cons first rest ih =>
      obtain ⟨k, value⟩ := first
      cases value with
      | none => exact absurd h (by simp [accepted?])
      | some v =>
          obtain ⟨others, found, rfl⟩ := Option.map_eq_some_iff.mp h
          obtain ⟨same, source⟩ := ih found
          refine ⟨congrArg (k :: ·) same, fun e member => ?_⟩
          obtain rfl | later := List.mem_cons.mp member
          · exact List.mem_cons_self
          · exact List.mem_cons_of_mem _ (source e later)

mutual

theorem keyed_of_specOf? : ∀ (es : List (Value × Value)) {spec : NodeSpec},
    specOf? es = some spec → spec.Keyed
  | [], spec, h => by
      cases h
      intro body held
      contradiction
  | (k, v) :: rest, spec, h => by
      cases k with
      | str name =>
          rw [specOf?] at h
          obtain ⟨others, found, h⟩ := Option.bind_eq_some_iff.mp h
          have keyed := keyed_of_specOf? rest found
          split at h
          · obtain ⟨post, -, h⟩ := Option.bind_eq_some_iff.mp h
            cases h
            exact keyed
          split at h
          · obtain ⟨cases', -, h⟩ := Option.bind_eq_some_iff.mp h
            cases h
            exact keyed
          split at h
          · cases h
            exact keyed
          split at h
          · obtain ⟨field, inner, h⟩ := Option.bind_eq_some_iff.mp h
            cases h
            exact keyed_of_subflowField? v inner
          · cases h
            exact keyed
      | _ => contradiction
termination_by structural es => es

theorem keyed_of_subflowField? : ∀ (v : Value) {field : Slot Flow},
    subflowField? v = some field → ∀ body, field.value? = some body → Flow.Keyed body
  | v, field, h, body, held => by
      cases v with
      | map entries =>
          obtain ⟨scope, found, rfl⟩ := Option.map_eq_some_iff.mp h
          cases held
          exact keyed_of_scopeOf? entries found
      | _ =>
          cases h
          contradiction
termination_by structural v => v

/-- What is read as a scope is keyed: its `nodes` are written into a record name by name,
and its other fields hold no nodes. -/
theorem keyed_of_scopeOf? : ∀ (es : List (Value × Value)) {flow : Flow},
    scopeOf? es = some flow → Flow.Keyed flow
  | [], flow, h => by
      cases h
      exact .intro List.nodup_nil fun body held => absurd held List.not_mem_nil
  | (k, v) :: rest, flow, h => by
      cases k with
      | str name =>
          rw [scopeOf?] at h
          obtain ⟨others, found, h⟩ := Option.bind_eq_some_iff.mp h
          obtain ⟨distinct, inside⟩ := keyed_of_scopeOf? rest found
          split at h
          · cases h
            exact .intro distinct inside
          split at h
          · obtain ⟨nodes, read, h⟩ := Option.bind_eq_some_iff.mp h
            cases h
            obtain ⟨distinct, inside⟩ := keyed_of_nodes? v read
            refine .intro distinct fun body member => ?_
            obtain ⟨entry, listed, held⟩ := Flow.mem_bodies.mp member
            exact inside entry listed body held
          split at h
          · obtain ⟨edges, -, h⟩ := Option.bind_eq_some_iff.mp h
            cases h
            exact .intro distinct inside
          · cases h
            exact .intro distinct inside
      | _ => contradiction
termination_by structural es => es

theorem keyed_of_nodes? : ∀ (v : Value) {nodes : Entries NodeSpec},
    nodes? v = some nodes → nodes.names.Nodup ∧ ∀ entry ∈ nodes, entry.2.Keyed
  | v, nodes, h => by
      cases v with
      | null =>
          cases h
          exact ⟨List.nodup_nil, fun entry member => absurd member List.not_mem_nil⟩
      | map entries =>
          obtain ⟨same, source⟩ := names_of_accepted? h
          refine ⟨same ▸ Entries.nodup_names_ofList _, fun entry member => ?_⟩
          have read := Entries.mem_of_mem_ofList (source entry member)
          exact keyed_of_nodeEntries entries read
      | _ => contradiction
termination_by structural v => v

theorem keyed_of_nodeEntries : ∀ (es : List (Value × Value)) {key : String} {spec : NodeSpec},
    (key, some spec) ∈ nodeEntries es → spec.Keyed
  | [], key, spec, member => absurd member List.not_mem_nil
  | (k, v) :: rest, key, spec, member => by
      obtain first | later := List.mem_cons.mp member
      · exact keyed_of_node? v (Prod.mk.inj first).2.symm
      · exact keyed_of_nodeEntries rest later
termination_by structural es => es

theorem keyed_of_node? : ∀ (v : Value) {spec : NodeSpec}, node? v = some spec → spec.Keyed
  | v, spec, h => by
      cases v with
      | null =>
          cases h
          intro body held
          contradiction
      | map entries => exact keyed_of_specOf? entries h
      | _ => contradiction
termination_by structural v => v

end

/-- Every flow that a document describes is keyed. -/
theorem Flow.keyed_of_ofValue? {v : Value} (h : Flow.ofValue? v = some flow) :
    Flow.Keyed flow := by
  cases v with
  | map entries => exact keyed_of_scopeOf? entries h
  | _ => contradiction

end FlowDiagram.Definition
