import FlowDiagram.Proofs.Definition.Leniency
import FlowDiagram.Proofs.Lists
/-!
# Which JSON documents are accepted

A JSON document is kept if it describes scopes all the way down: `Acceptable` looks at nothing but
`edges`, `nodes` and the mappings under `subflow`, whatever the kinds of the nodes and whatever
else the document says. Any other document gives the flow without nodes (`parse_json`). What is
kept has the keys of the document in its order, and of its edges those that are mappings (`Keeps`).
A text with an integer of too many digits is JSON as well, but it is reported instead.

A mapping of a JSON document has texts as keys, and each of them once. So of the conditions that
`ScopeFits` has for any mapping only the shapes of nodes and edges remain.
-/

namespace FlowDiagram.Definition

open Document Json

/-- A value describes a scope, in which the mappings that nodes have for their scopes describe
scopes as well. -/
inductive Acceptable : Value → Prop where
  | intro {es : List (Value × Value)}
      (edges : ∀ v, (Value.map es).get? "edges" = some v → v = .null ∨ ∃ items, v = .seq items)
      (nodes : ∀ v, (Value.map es).get? "nodes" = some v → v = .null ∨ ∃ ns, v = .map ns)
      (each : ∀ ns, (Value.map es).get? "nodes" = some (.map ns) →
        ∀ e ∈ ns, e.2 = .null ∨ e.2.isMap = true)
      (inside : ∀ ns, (Value.map es).get? "nodes" = some (.map ns) →
        ∀ e ∈ ns, ∀ body, e.2.get? "subflow" = some (.map body) → Acceptable (.map body)) :
      Acceptable (.map es)

/-- A flow has the nodes and the edges that a mapping describes, and so have the scopes in it. -/
inductive Keeps : Value → Flow → Prop where
  | intro {es : List (Value × Value)} {flow : Flow}
      (keys : flow.entries.map (fun entry => Value.str entry.1) = (nodesIn es).map Prod.fst)
      (edges : flow.edges.value? = ((Value.map es).get? "edges").bind edges?)
      (holds : ∀ key n spec, (.str key, n) ∈ nodesIn es → (key, spec) ∈ flow.entries →
        (spec.subflow.value?.isSome = true ↔ ∃ body, n.get? "subflow" = some (.map body)))
      (inside : ∀ key n spec, (.str key, n) ∈ nodesIn es → (key, spec) ∈ flow.entries →
        ∀ body inner, n.get? "subflow" = some (.map body) → spec.subflow.value? = some inner →
          Keeps (.map body) inner) : Keeps (.map es) flow

/-! ## Mappings with each key once -/

section

variable {integer : Int → Prop} {number : Float → Prop}
variable {es ns body : List (Value × Value)} {fields : Entries Value}
variable {key name : String} {v n : Value}

theorem textual_of_canonical (canonical : (Value.map es).Canonical integer number) :
    Textual es := by
  obtain ⟨fields, rfl, -, -⟩ := canonical.exists_fields
  exact List.forall_mem_map.mpr fun e _ => ⟨e.1, rfl⟩

/-- An entry is the one that is found under its key. -/
theorem get?_eq_some_iff_of_canonical (canonical : (Value.map es).Canonical integer number) :
    (Value.map es).get? name = some v ↔ (.str name, v) ∈ es := by
  refine ⟨mem_of_get?, fun member => ?_⟩
  obtain ⟨fields, rfl, distinct, -⟩ := canonical.exists_fields
  obtain ⟨e, listed, same⟩ := List.mem_map.mp member
  obtain ⟨⟨⟩, rfl⟩ := Prod.mk.inj same
  exact (Value.get?_record fields e.1).trans (Entries.get?_of_mem distinct listed)

/-- The last value under a key is the only one. -/
theorem valueUnder?_eq_some_iff_of_canonical (canonical : (Value.map ns).Canonical integer number) :
    valueUnder? ns key = some v ↔ (.str key, v) ∈ ns := by
  obtain ⟨fields, rfl, distinct, -⟩ := canonical.exists_fields
  have texts : valueUnder? (fields.map fun e => (.str e.1, e.2)) key =
      Entries.get? fields.reverse key := by
    rw [valueUnder?, List.map_map]
    exact congrArg (fun es : Entries Value => es.reverse.lookup key) (List.map_id fields)
  have backward : (Entries.names fields.reverse).Nodup := by
    rw [Entries.names, List.map_reverse, List.nodup_reverse]
    exact distinct
  have entry : (Value.str key, v) ∈ fields.map (fun e => (Value.str e.1, e.2)) ↔
      (key, v) ∈ fields.reverse := by
    simp
  rw [texts, entry]
  exact ⟨Entries.mem_of_get?, Entries.get?_of_mem backward⟩

theorem nodeKeys_of_canonical (canonical : (Value.map (nodesIn es)).Canonical integer number) :
    (nodeKeys es).map Value.str = (nodesIn es).map Prod.fst := by
  obtain ⟨fields, same, distinct, -⟩ := canonical.exists_fields
  have texts : (fields.map fun e => (Value.str e.1, e.2)).map (fun e => referenceText e.1) =
      fields.names := by
    rw [List.map_map]
    rfl
  rw [nodeKeys, same, texts, eraseDups_eq_self distinct, Entries.names, List.map_map, List.map_map]
  rfl

theorem canonical_nodesIn (canonical : (Value.map es).Canonical integer number) :
    (Value.map (nodesIn es)).Canonical integer number := by
  have none : (Value.record []).Canonical integer number :=
    .record List.nodup_nil fun e member => absurd member List.not_mem_nil
  rw [nodesIn]
  cases found : (Value.map es).get? "nodes" with
  | none => exact none
  | some v =>
      cases v with
      | map ns => exact canonical.of_get? found
      | _ => exact none

end

/-! ## What is kept -/

section

variable {integer : Int → Prop} {number : Float → Prop} {es ns : List (Value × Value)} {n : Value}

theorem nodeFits_iff_of_canonical (canonical : n.Canonical integer number) :
    NodeFits n ↔ (n = .null ∨ n.isMap = true) ∧
      ∀ body, n.get? "subflow" = some (.map body) → ScopeFits body := by
  constructor
  · rintro (_ | ⟨-, -, -, subflow⟩)
    · exact ⟨.inl rfl, nofun⟩
    · exact ⟨.inr rfl, fun body found => subflow body (mem_of_get? found)⟩
  · rintro ⟨shape, subflow⟩
    cases n with
    | null => exact .null
    | map es =>
        refine .map (textual_of_canonical canonical) ?_ ?_ ?_
        · exact fun fields listed => textual_of_canonical (canonical.of_mem listed)
        · intro items listed fields member
          exact textual_of_canonical ((canonical.of_mem listed).of_item member)
        · exact fun body listed =>
            subflow body ((get?_eq_some_iff_of_canonical canonical).mpr listed)
    | _ => exact absurd shape (by simp [Value.isMap])

theorem sizeOf_subflow_lt {e : Value × Value} {body : List (Value × Value)}
    (listed : (.str "nodes", .map ns) ∈ es) (member : e ∈ ns)
    (found : e.2.get? "subflow" = some (.map body)) : sizeOf body < sizeOf es := by
  obtain ⟨key, n⟩ := e
  cases n with
  | map fields =>
      have inner := sizeOf_lt_of_field (mem_of_get? found)
      have node := sizeOf_lt_of_field member
      have nodes := sizeOf_lt_of_field listed
      omega
  | _ => contradiction

theorem scopeFits_iff_of_canonical (canonical : (Value.map es).Canonical integer number) :
    ScopeFits es ↔
      (∀ v, (Value.map es).get? "edges" = some v → v = .null ∨ ∃ items, v = .seq items) ∧
      (∀ v, (Value.map es).get? "nodes" = some v → v = .null ∨ ∃ ns, v = .map ns) ∧
      ∀ ns, (Value.map es).get? "nodes" = some (.map ns) → ∀ e ∈ ns, NodeFits e.2 := by
  simp only [get?_eq_some_iff_of_canonical canonical]
  constructor
  · rintro ⟨-, nodes, edges, each⟩
    refine ⟨edges, nodes, fun ns listed e member => ?_⟩
    have inner := canonical.of_mem listed
    obtain ⟨key, named⟩ := textual_of_canonical inner e member
    refine each ns listed key e.2 ((valueUnder?_eq_some_iff_of_canonical inner).mpr ?_)
    exact named ▸ member
  · rintro ⟨edges, nodes, each⟩
    refine .intro (textual_of_canonical canonical) nodes edges fun ns listed key n under => ?_
    have inner := canonical.of_mem listed
    exact each ns listed _ ((valueUnder?_eq_some_iff_of_canonical inner).mp under)

/-- A mapping of a JSON document fits exactly if it is acceptable. -/
theorem scopeFits_iff_acceptable (es : List (Value × Value))
    (canonical : (Value.map es).Canonical integer number) :
    ScopeFits es ↔ Acceptable (.map es) := by
  have node {ns : List (Value × Value)} (found : (Value.map es).get? "nodes" = some (.map ns))
      {e : Value × Value} (member : e ∈ ns) : NodeFits e.2 ↔ (e.2 = .null ∨ e.2.isMap = true) ∧
        ∀ body, e.2.get? "subflow" = some (.map body) → Acceptable (.map body) := by
    have own := (canonical.of_get? found).of_mem member
    rw [nodeFits_iff_of_canonical own]
    refine and_congr_right fun _ => forall_congr' fun body => forall_congr' fun held => ?_
    have smaller := sizeOf_subflow_lt (mem_of_get? found) member held
    exact scopeFits_iff_acceptable body (own.of_get? held)
  rw [scopeFits_iff_of_canonical canonical]
  constructor
  · rintro ⟨edges, nodes, each⟩
    exact .intro edges nodes
      (fun ns found e member => ((node found member).mp (each ns found e member)).1)
      fun ns found e member => ((node found member).mp (each ns found e member)).2
  · rintro ⟨edges, nodes, each, inside⟩
    refine ⟨edges, nodes, fun ns found e member => (node found member).mpr ?_⟩
    exact ⟨each ns found e member, inside ns found e member⟩
termination_by sizeOf es

/-! ## What is kept of it -/

theorem value?_slotOf {α : Type} (es : List (Value × Value)) (name : String)
    (read : Value → Option α) :
    (slotOf es name read).value? = ((Value.map es).get? name).bind read := by
  rw [slotOf, fieldOf]
  cases (Value.map es).get? name with
  | none => rfl
  | some v => exact Slot.value?_ofOption (read v)

/-- A node holds a scope exactly if it has a mapping for it. -/
theorem NodeReads.exists_body {spec : NodeSpec} (reads : NodeReads n spec) :
    (spec.subflow.value?.isSome = true ↔ ∃ inner, n.get? "subflow" = some (.map inner)) ∧
      ∀ inner body, n.get? "subflow" = some (.map inner) → spec.subflow.value? = some body →
        ScopeReads inner body := by
  cases reads with
  | null => exact ⟨by simp [Slot.value?, Value.get?], by rintro _ _ ⟨⟩⟩
  | @map es _ body _ _ _ subflow _ inside =>
      rw [subflow, value?_slotOf]
      cases found : (Value.map es).get? "subflow" with
      | none => exact ⟨by simp, by rintro _ _ ⟨⟩⟩
      | some v =>
          cases v with
          | map fields =>
              refine ⟨by simp [Value.isMap], fun inner body' same held => ?_⟩
              obtain rfl := Value.map.inj (Option.some.inj same)
              obtain rfl : body = body' := by simpa [Value.isMap] using held
              exact inside _ found
          | _ => exact ⟨by simp [Value.isMap], by rintro _ _ ⟨⟩⟩

theorem get?_nodes_of_mem {e : Value × Value} (member : e ∈ nodesIn es) :
    (Value.map es).get? "nodes" = some (.map (nodesIn es)) := by
  rw [nodesIn] at member ⊢
  cases found : (Value.map es).get? "nodes" with
  | none =>
      rw [found] at member
      contradiction
  | some v =>
      cases v with
      | map ns => rfl
      | _ =>
          rw [found] at member
          contradiction

/-- What a JSON document is read as keeps its nodes and edges. -/
theorem keeps_of_scopeReads (es : List (Value × Value))
    (canonical : (Value.map es).Canonical integer number) {flow : Flow}
    (reads : ScopeReads es flow) :
    Keeps (.map es) flow := by
  obtain ⟨start, edges, others, nodes, keys, each⟩ := reads
  have inner := canonical_nodesIn canonical
  have node {key : String} {n : Value} {spec : NodeSpec} (listed : (.str key, n) ∈ nodesIn es)
      (member : (key, spec) ∈ flow.entries) : NodeReads n spec :=
    each _ member n ((valueUnder?_eq_some_iff_of_canonical inner).mpr listed)
  refine .intro ?_ ?_ ?_ ?_
  · rw [← nodeKeys_of_canonical inner, ← keys, Entries.names, List.map_map]
    rfl
  · rw [edges, value?_slotOf]
  · exact fun key n spec listed member => (node listed member).exists_body.1
  · intro key n spec listed member body scope found held
    have smaller := sizeOf_subflow_lt (mem_of_get? (get?_nodes_of_mem listed)) listed found
    have own := inner.of_mem listed
    exact keeps_of_scopeReads body (own.of_get? found)
      ((node listed member).exists_body.2 body scope found held)
termination_by sizeOf es

end

/-- A JSON document describes a flow exactly if it is acceptable, with all its nodes and edges. -/
theorem described_json {v : Value} (document : IsDocument v) :
    (Acceptable v → ∃ flow, Flow.ofValue? v = some flow ∧ Keeps v flow) ∧
      (¬Acceptable v → Flow.ofValue? v = none) := by
  cases v with
  | map es =>
      have fits := (exists_scopeOf?_iff es).trans (scopeFits_iff_acceptable es document)
      constructor
      · intro acceptable
        obtain ⟨flow, described⟩ := fits.mpr acceptable
        refine ⟨flow, by rw [Flow.ofValue?, described], ?_⟩
        exact keeps_of_scopeReads es document (scopeReads_of_scopeOf? es described)
      · exact fun refused => Option.eq_none_iff_forall_ne_some.mpr fun flow described =>
          refused (fits.mp ⟨flow, described⟩)
  | _ =>
      refine ⟨fun acceptable => ?_, fun _ => rfl⟩
      cases acceptable

/-! ## Texts -/

/-- A JSON text whose document is acceptable defines a flow with all nodes and edges that the
document describes, and any other JSON text defines the flow without nodes. What is excepted are
texts with an integer of too many digits, which define nothing and are reported. -/
theorem parse_json {text : String} {language : Option Language} (json : language ≠ some .yaml) :
    (∀ v, Json.read text.toList = .ok v → v.depth < deepest →
      (Acceptable v → ∃ flow, Flow.ofValue? v = some flow ∧
          Flow.parse text language = .ok flow ∧ Keeps v flow) ∧
        (¬Acceptable v → Flow.ofValue? v = none ∧ Flow.parse text language = .ok .empty)) ∧
      ∀ digits, Json.read text.toList = .error (.longInteger digits) →
        Number.mostDigits < digits ∧
          Flow.parse text language = .error (.json (.longInteger digits)) := by
  constructor
  · intro v read _
    obtain ⟨kept, discarded⟩ := described_json (isDocument_of_read read)
    rw [parse_of_read json read]
    constructor
    · intro acceptable
      obtain ⟨flow, described, keeps⟩ := kept acceptable
      exact ⟨flow, described, by rw [described, Option.getD_some], keeps⟩
    · intro refused
      exact ⟨discarded refused, by rw [discarded refused, Option.getD_none]⟩
  · exact fun digits read => ⟨mostDigits_lt_of_read read, parse_of_longInteger json read⟩

theorem acceptable_edges (items : List Value) : Acceptable (.map [(.str "edges", .seq items)]) := by
  refine .intro ?_ ?_ ?_ ?_ <;> simp [Value.get?]

/-- A mapping whose edges are a list is acceptable, but an integer in this list may have too many
digits. -/
theorem parse_numberedEdge :
    let digits := List.replicate 4300 '1'
    Acceptable (.map [(.str "edges", .seq [.int (Number.ofDigits ('1' :: digits))])]) ∧
      Flow.parse (numberedEdge digits) (some .json) = .error (.json (.longInteger 4301)) :=
  ⟨acceptable_edges _, parse_of_longInteger (by decide) (read_ones Nat.le.refl)⟩

/-- A text with a scope in a node that is no subflow. -/
def tolerated : String :=
  "\x7b\"nodes\": \x7b\"b\": \x7b\x7d, \"a\": \x7b\"subflow\": \x7b\"edges\": []\x7d\x7d\x7d\x7d"

def toleratedDocument : Value :=
  .map [(.str "nodes", .map [(.str "b", .map []),
    (.str "a", .map [(.str "subflow", .map [(.str "edges", .seq [])])])])]

theorem acceptable_toleratedDocument : Acceptable toleratedDocument := by
  refine .intro (by simp [Value.get?]) (by simp [Value.get?]) ?_ ?_
  · rintro ns ⟨⟩
    exact List.forall_mem_cons.mpr ⟨.inr rfl, List.forall_mem_singleton.mpr (.inr rfl)⟩
  · rintro ns ⟨⟩
    refine List.forall_mem_cons.mpr ⟨by simp [Value.get?], List.forall_mem_singleton.mpr ?_⟩
    rintro body ⟨⟩
    exact acceptable_edges []

/-- This text is kept with its nodes in order. The text with a scope whose nodes are a list is
not kept. -/
theorem parse_json_tolerated :
    (∃ flow, Flow.parse tolerated none = .ok flow ∧
        flow.entries.map (fun entry => Value.str entry.1) = [.str "b", .str "a"] ∧
        Keeps toleratedDocument flow) ∧
      Flow.parse misshapen none = .ok .empty := by
  have json : (none : Option Language) ≠ some .yaml := nofun
  have read : Json.read tolerated.toList = .ok toleratedDocument := by cbv
  have read' : Json.read misshapen.toList = .ok (.map misshapenFields) := by cbv
  constructor
  · obtain ⟨flow, -, parsed, keeps⟩ :=
      ((parse_json json).1 _ read (by decide)).1 acceptable_toleratedDocument
    obtain ⟨keys, -, -, -⟩ := id keeps
    exact ⟨flow, parsed, keys, keeps⟩
  · refine (((parse_json json).1 _ read' (by decide)).2 ?_).2
    rintro ⟨-, -, -, inside⟩
    obtain ⟨-, nodes, -, -⟩ := inside _ rfl _ (List.mem_singleton_self _) _ rfl
    simpa using nodes (.seq []) rfl

end FlowDiagram.Definition
