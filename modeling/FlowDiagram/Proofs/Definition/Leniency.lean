import FlowDiagram.Proofs.Definition.Keys
import FlowDiagram.Proofs.Definition.Source
/-!
# What a reader forgives

A field of a document that does not fit is dropped, and the rest is read as it is. Some
misfits are not forgiven: a mapping whose keys are not all texts where a node, its rules or a
case is described, and a scope whose nodes are no mapping or whose edges are no sequence, at
any depth. One of these discards the whole document.

`ScopeFits` says of a mapping that it has no such place, and `ScopeReads` what it is read as
then. `parse_of_mapping` says that these two decide what a text defines. The proof reads each
mapping field by field (`specOf?_eq_some_iff`, `scopeOf?_eq_some_iff`) and then goes down the
scopes by their size.
-/

namespace FlowDiagram.Definition

open Document

/-! ## Fields of a mapping -/

/-- All keys of a mapping are texts. -/
def Textual (es : List (Value × Value)) : Prop := ∀ e ∈ es, ∃ name, e.1 = .str name

/-- Each value under a name is read. -/
def Accepted {α : Type} (es : List (Value × Value)) (name : String) (read : Value → Option α) :
    Prop :=
  ∀ v, (.str name, v) ∈ es → ∃ a, read v = some a

/-- A field that may be missing. -/
def fieldOf {α : Type} (es : List (Value × Value)) (name : String) (read : Value → Slot α) :
    Slot α :=
  ((Value.map es).get? name).elim .absent read

/-- A field that may be missing, and is dropped if it does not fit. -/
def slotOf {α : Type} (es : List (Value × Value)) (name : String) (read : Value → Option α) :
    Slot α :=
  fieldOf es name (.ofOption ∘ read)

/-- The fields with other names, as they are. -/
def fieldsBeside (names : List String) (es : List (Value × Value)) : Entries Value :=
  es.filterMap fun e =>
    match e.1 with
    | .str name => if name ∈ names then none else some (name, e.2)
    | _ => none

section

variable {α : Type} {rest : List (Value × Value)} {k v : Value} {name n : String}
  {names : List String}

@[simp] theorem textual_nil : Textual [] := by simp [Textual]

@[simp] theorem textual_cons :
    Textual ((k, v) :: rest) ↔ (∃ name, k = .str name) ∧ Textual rest := by
  simp [Textual]

@[simp] theorem accepted_nil {read : Value → Option α} : Accepted [] name read := by
  simp [Accepted]

@[simp] theorem accepted_cons {read : Value → Option α} :
    Accepted ((.str n, v) :: rest) name read ↔
      (name = n → ∃ a, read v = some a) ∧ Accepted rest name read := by
  simp only [Accepted, List.mem_cons, Prod.mk.injEq, Value.str.injEq]
  constructor
  · exact fun each => ⟨fun same => each v (.inl ⟨same, rfl⟩), fun w later => each w (.inr later)⟩
  · rintro ⟨first, others⟩ w (⟨same, rfl⟩ | later)
    · exact first same
    · exact others w later

@[simp] theorem fieldOf_nil {read : Value → Slot α} : fieldOf [] name read = .absent := rfl

@[simp] theorem fieldOf_cons {read : Value → Slot α} :
    fieldOf ((.str n, v) :: rest) name read =
      if n = name then read v else fieldOf rest name read := by
  by_cases same : n = name <;> simp [fieldOf, Value.get?, same]

@[simp] theorem slotOf_nil {read : Value → Option α} : slotOf [] name read = .absent := rfl

@[simp] theorem slotOf_cons {read : Value → Option α} :
    slotOf ((.str n, v) :: rest) name read =
      if n = name then .ofOption (read v) else slotOf rest name read :=
  fieldOf_cons

theorem mem_of_get? {es : List (Value × Value)} (found : (Value.map es).get? name = some v) :
    (.str name, v) ∈ es := by
  obtain ⟨⟨k, w⟩, first, rfl⟩ := Option.map_eq_some_iff.mp found
  have named := List.find?_some first
  cases k with
  | str n =>
      obtain rfl : n = name := by simpa using named
      exact List.mem_of_find?_eq_some first
  | _ => contradiction

@[simp] theorem fieldsBeside_nil : fieldsBeside names [] = [] := rfl

@[simp] theorem fieldsBeside_cons :
    fieldsBeside names ((.str n, v) :: rest) =
      if n ∈ names then fieldsBeside names rest else (n, v) :: fieldsBeside names rest := by
  by_cases known : n ∈ names <;> simp [fieldsBeside, known]

end

/-! ## Reading a mapping field by field -/

/-- The targets of labels, if they are given as a mapping. -/
def targets? : Value → Option (Entries String)
  | .map es => some (targets es)
  | _ => none

def rulesOf (es : List (Value × Value)) : PostRules where
  actionStatic := slotOf es "action_static" reference?
  actionMap := slotOf es "action_map" targets?
  others := fieldsBeside ["action_static", "action_map"] es

/-- The rules of a node, if it has a mapping for them. -/
def rules? : Value → Option PostRules
  | .map es => some (rulesOf es)
  | _ => none

def caseOf (es : List (Value × Value)) : Case where
  action := slotOf es "action" reference?
  others := fieldsBeside ["action"] es

/-- The cases of a node, if it has a sequence for them. -/
def cases? : Value → Option (List Case)
  | .seq items => some ((items.filter Value.isMap).map (caseOf ·.entries))
  | _ => none

/-- The explicit edges of a scope, if it has a sequence for them. -/
def edges? : Value → Option (List EdgeEntry)
  | .seq items => some ((items.filter Value.isMap).map EdgeEntry.ofValue)
  | _ => none

theorem exists_fields?_iff {es : List (Value × Value)} :
    (∃ fields, fields? es = some fields) ↔ Textual es := by
  induction es with
  | nil => simp [fields?]
  | cons e rest ih =>
      obtain ⟨k, v⟩ := e
      cases k <;> simp [fields?, ← ih]

theorem ofFields_eq_rulesOf {es : List (Value × Value)} {fields : Entries Value}
    (read : fields? es = some fields) : PostRules.ofFields fields = rulesOf es := by
  induction es generalizing fields with
  | nil =>
      cases read
      rfl
  | cons e rest ih =>
      obtain ⟨k, v⟩ := e
      cases k with
      | str name =>
          obtain ⟨others, readRest, rfl⟩ := Option.map_eq_some_iff.mp read
          have unfolded := ih readRest
          by_cases first : name = "action_static"
          · simp [PostRules.ofFields, rulesOf, slotOf, first, unfolded, referenceField]
          by_cases second : name = "action_map"
          · cases v <;>
              simp [PostRules.ofFields, rulesOf, slotOf, second, unfolded, targets?, Slot.ofOption]
          · simp [PostRules.ofFields, rulesOf, slotOf, first, second, unfolded]
      | _ => contradiction

theorem ofFields_eq_caseOf {es : List (Value × Value)} {fields : Entries Value}
    (read : fields? es = some fields) : Case.ofFields fields = caseOf es := by
  induction es generalizing fields with
  | nil =>
      cases read
      rfl
  | cons e rest ih =>
      obtain ⟨k, v⟩ := e
      cases k with
      | str name =>
          obtain ⟨others, readRest, rfl⟩ := Option.map_eq_some_iff.mp read
          by_cases first : name = "action" <;>
            simp [Case.ofFields, caseOf, slotOf, first, ih readRest, referenceField]
      | _ => contradiction

/-! ### The fields of a node -/

section

variable {v : Value}

theorem exists_postField?_iff :
    (∃ field, postField? v = some field) ↔ ∀ es, v = .map es → Textual es := by
  cases v with
  | map es => simpa [postField?] using exists_fields?_iff
  | _ => simp [postField?]

theorem postField?_eq {field : Slot PostRules} (read : postField? v = some field) :
    field = .ofOption (rules? v) := by
  cases v with
  | map es =>
      obtain ⟨fields, listed, rfl⟩ := Option.map_eq_some_iff.mp read
      exact congrArg Slot.given (ofFields_eq_rulesOf listed)
  | _ =>
      cases read
      rfl

theorem exists_casesField?_iff :
    (∃ field, casesField? v = some field) ↔
      ∀ items, v = .seq items → ∀ es, .map es ∈ items → Textual es := by
  have fits (item : Value) : (item.isMap → ∃ case, Case.ofValue? item = some case) ↔
      ∀ es, item = .map es → Textual es := by
    cases item with
    | map es => simp [Case.ofValue?, Value.isMap, exists_fields?_iff]
    | _ => simp [Value.isMap]
  cases v with
  | seq items =>
      have each : (∃ cases, (items.filter Value.isMap).mapM Case.ofValue? = some cases) ↔
          ∀ item ∈ items, ∀ es, item = .map es → Textual es := by
        simp only [exists_mapM_eq_some_iff, List.mem_filter, and_imp, fits]
      have whole : (∃ field, casesField? (.seq items) = some field) ↔
          ∃ cases, (items.filter Value.isMap).mapM Case.ofValue? = some cases := by
        simp [casesField?]
      rw [whole, each]
      constructor
      · rintro inside _ ⟨⟩ es member
        exact inside _ member es rfl
      · rintro inside _ member es rfl
        exact inside items rfl es member
  | _ => simp [casesField?]

theorem casesField?_eq {field : Slot (List Case)} (read : casesField? v = some field) :
    field = .ofOption (cases? v) := by
  cases v with
  | seq items =>
      obtain ⟨cases', listed, rfl⟩ := Option.map_eq_some_iff.mp read
      refine congrArg Slot.given (eq_map_of_mapM_eq_some ?_ listed)
      intro item _ case read
      cases item with
      | map es =>
          obtain ⟨fields, listed, rfl⟩ := Option.map_eq_some_iff.mp read
          exact ofFields_eq_caseOf listed
      | _ => contradiction
  | _ =>
      cases read
      rfl

theorem exists_edgesField?_iff :
    (∃ field, edgesField? v = some field) ↔ v = .null ∨ ∃ items, v = .seq items := by
  cases v <;> simp [edgesField?]

theorem edgesField?_eq {field : Slot (List EdgeEntry)} (read : edgesField? v = some field) :
    field = .ofOption (edges? v) := by
  cases v <;> cases read <;> rfl

end

/-- A node by its fields. -/
def nodeOf (es : List (Value × Value)) : NodeSpec where
  post := slotOf es "post" rules?
  cases := slotOf es "choice_cases" cases?
  defaultAction := slotOf es "default_action" reference?
  subflow := fieldOf es "subflow" fun v => (subflowField? v).getD .dropped
  others := fieldsBeside ["post", "choice_cases", "default_action", "subflow"] es

theorem specOf?_eq_some_iff {es : List (Value × Value)} {spec : NodeSpec} :
    specOf? es = some spec ↔
      Textual es ∧ Accepted es "post" postField? ∧ Accepted es "choice_cases" casesField? ∧
        Accepted es "subflow" subflowField? ∧ nodeOf es = spec := by
  induction es generalizing spec with
  | nil => simp [specOf?, nodeOf]
  | cons e rest ih =>
      obtain ⟨k, v⟩ := e
      cases k with
      | str name =>
          rw [specOf?]
          simp only [Option.bind_eq_bind, Option.bind_eq_some_iff, ih]
          split
          · next post =>
              cases read : postField? v with
              | none => simp [post, read]
              | some field => simp [post, read, postField?_eq read, nodeOf, and_assoc]
          split
          · next cases' =>
              cases read : casesField? v with
              | none => simp [cases', read]
              | some field => simp [cases', read, casesField?_eq read, nodeOf, and_assoc]
          split
          · next default => simp [default, referenceField, nodeOf, and_assoc]
          split
          · next subflow =>
              cases read : subflowField? v with
              | none => simp [subflow, read]
              | some field => simp [subflow, read, nodeOf, and_assoc]
          · next post cases' default subflow =>
              simp [post, cases', default, subflow, nodeOf, and_assoc, Ne.symm, eq_comm]
      | _ => simp [specOf?]

/-! ### The fields of a scope -/

/-- A scope by its fields. -/
def scopeWith (es : List (Value × Value)) : Flow where
  start := slotOf es "start" reference?
  nodes := slotOf es "nodes" nodes?
  edges := slotOf es "edges" edges?
  others := fieldsBeside ["start", "nodes", "edges"] es

theorem scopeOf?_eq_some_iff {es : List (Value × Value)} {flow : Flow} :
    scopeOf? es = some flow ↔
      Textual es ∧ Accepted es "nodes" nodes? ∧ Accepted es "edges" edgesField? ∧
        scopeWith es = flow := by
  induction es generalizing flow with
  | nil => simp [scopeOf?, scopeWith]
  | cons e rest ih =>
      obtain ⟨k, v⟩ := e
      cases k with
      | str name =>
          rw [scopeOf?]
          simp only [Option.bind_eq_bind, Option.bind_eq_some_iff, ih]
          split
          · next start => simp [start, referenceField, scopeWith, and_assoc]
          split
          · next nodes =>
              cases read : nodes? v with
              | none => simp [nodes, read]
              | some listed => simp [nodes, read, scopeWith, Slot.ofOption, and_assoc]
          split
          · next edges =>
              cases read : edgesField? v with
              | none => simp [edges, read]
              | some field => simp [edges, read, edgesField?_eq read, scopeWith, and_assoc]
          · next start nodes edges => simp [start, nodes, edges, scopeWith, and_assoc, eq_comm]
      | _ => simp [scopeOf?]

/-- The last value in a mapping whose key reads so. -/
def valueUnder? (ns : List (Value × Value)) (key : String) : Option Value :=
  (ns.map fun e => (referenceText e.1, e.2)).reverse.lookup key

theorem exists_mem_of_valueUnder? {ns : List (Value × Value)} {key : String} {v : Value}
    (found : valueUnder? ns key = some v) : ∃ k, (k, v) ∈ ns := by
  have listed := List.mem_reverse.mp (Entries.mem_of_get? found)
  obtain ⟨⟨k, w⟩, member, same⟩ := List.mem_map.mp listed
  cases same
  exact ⟨k, member⟩

theorem nodeEntries_eq (ns : List (Value × Value)) :
    nodeEntries ns = (ns.map fun e => (referenceText e.1, e.2)).map fun e => (e.1, node? e.2) := by
  induction ns with
  | nil => rfl
  | cons e rest ih =>
      obtain ⟨k, v⟩ := e
      rw [nodeEntries, ih]
      rfl

theorem get?_nodeEntries (ns : List (Value × Value)) (key : String) :
    (Entries.ofList (nodeEntries ns)).get? key = (valueUnder? ns key).map node? := by
  rw [Entries.get?_ofList, nodeEntries_eq, ← List.map_reverse]
  exact Entries.get?_map node? _ key

theorem exists_accepted?_iff {α : Type} {es : Entries (Option α)} :
    (∃ kept, accepted? es = some kept) ↔ ∀ e ∈ es, ∃ a, e.2 = some a := by
  induction es with
  | nil => simp [accepted?]
  | cons e rest ih =>
      rw [List.forall_mem_cons, ← ih]
      obtain ⟨k, _ | a⟩ := e <;> simp [accepted?]

/-- The nodes of a scope are read if each of them is. -/
theorem exists_nodes?_iff {v : Value} :
    (∃ nodes, nodes? v = some nodes) ↔
      v = .null ∨ ∃ ns, v = .map ns ∧
        ∀ key w, valueUnder? ns key = some w → ∃ spec, node? w = some spec := by
  cases v with
  | map ns =>
      have listed (e : String × Option NodeSpec) :
          e ∈ Entries.ofList (nodeEntries ns) ↔
            (valueUnder? ns e.1).map node? = some e.2 := by
        rw [← get?_nodeEntries]
        exact ⟨Entries.get?_of_mem (Entries.nodup_names_ofList _), Entries.mem_of_get?⟩
      simp [nodes?, exists_accepted?_iff, listed]
  | _ => simp [nodes?]

theorem names_of_nodes? {ns : List (Value × Value)} {nodes : Entries NodeSpec}
    (read : nodes? (.map ns) = some nodes) :
    nodes.names = (ns.map fun e => referenceText e.1).eraseDups := by
  have keys : (nodeEntries ns).map Prod.fst = ns.map fun e => referenceText e.1 := by
    simp [nodeEntries_eq, Function.comp_def]
  rw [(names_of_accepted? read).1, Entries.names_ofList, keys]

theorem node?_of_nodes? {ns : List (Value × Value)} {nodes : Entries NodeSpec}
    (read : nodes? (.map ns) = some nodes) {key : String} {spec : NodeSpec}
    (member : (key, spec) ∈ nodes) {v : Value} (found : valueUnder? ns key = some v) :
    node? v = some spec := by
  have kept := (names_of_accepted? read).2 _ member
  have there := Entries.get?_of_mem (Entries.nodup_names_ofList _) kept
  rw [get?_nodeEntries, found] at there
  exact Option.some.inj there

/-! ## What fits -/

mutual

/-- A scope can be read. -/
inductive ScopeFits : List (Value × Value) → Prop where
  | intro {es : List (Value × Value)} (textual : Textual es)
      (nodes : ∀ v, (.str "nodes", v) ∈ es → v = .null ∨ ∃ ns, v = .map ns)
      (edges : ∀ v, (.str "edges", v) ∈ es → v = .null ∨ ∃ items, v = .seq items)
      (each : ∀ ns, (.str "nodes", .map ns) ∈ es →
        ∀ key v, valueUnder? ns key = some v → NodeFits v) : ScopeFits es

/-- A node can be read. -/
inductive NodeFits : Value → Prop where
  | null : NodeFits .null
  | map {es : List (Value × Value)} (textual : Textual es)
      (post : ∀ fields, (.str "post", .map fields) ∈ es → Textual fields)
      (cases : ∀ items, (.str "choice_cases", .seq items) ∈ es →
        ∀ fields, .map fields ∈ items → Textual fields)
      (subflow : ∀ inner, (.str "subflow", .map inner) ∈ es → ScopeFits inner) : NodeFits (.map es)

end

section

variable {es ns inner : List (Value × Value)} {key : String} {v : Value}

theorem sizeOf_snd_lt_of_mem {e : Value × Value} (listed : e ∈ es) : sizeOf e.2 < sizeOf es := by
  obtain ⟨k, v⟩ := e
  have entry := List.sizeOf_lt_of_mem listed
  simp only [Prod.mk.sizeOf_spec] at entry ⊢
  omega

theorem sizeOf_lt_of_field {k : Value} (listed : (k, .map inner) ∈ es) :
    sizeOf inner < sizeOf es := by
  have entry : sizeOf (Value.map inner) < sizeOf es := sizeOf_snd_lt_of_mem listed
  simp only [Value.map.sizeOf_spec] at entry
  omega

theorem sizeOf_valueUnder?_lt (found : valueUnder? ns key = some v) : sizeOf v < sizeOf ns := by
  obtain ⟨k, listed⟩ := exists_mem_of_valueUnder? found
  exact sizeOf_snd_lt_of_mem listed

end

mutual

theorem exists_scopeOf?_iff (es : List (Value × Value)) :
    (∃ flow, scopeOf? es = some flow) ↔ ScopeFits es := by
  simp only [scopeOf?_eq_some_iff, exists_and_left, exists_eq', and_true]
  constructor
  · rintro ⟨textual, nodes, edges⟩
    refine .intro textual ?_ (fun v listed => exists_edgesField?_iff.mp (edges v listed)) ?_
    · intro v listed
      exact (exists_nodes?_iff.mp (nodes v listed)).imp_right fun ⟨ns, same, _⟩ => ⟨ns, same⟩
    · intro ns listed key v found
      have smaller := sizeOf_lt_of_field listed
      have inside := sizeOf_valueUnder?_lt found
      obtain ⟨_, ⟨⟩, each⟩ := (exists_nodes?_iff.mp (nodes _ listed)).resolve_left nofun
      exact (exists_node?_iff v).mp (each key v found)
  · rintro ⟨textual, nodes, edges, each⟩
    refine ⟨textual, ?_, fun v listed => exists_edgesField?_iff.mpr (edges v listed)⟩
    intro v listed
    refine exists_nodes?_iff.mpr ((nodes v listed).imp_right ?_)
    rintro ⟨ns, rfl⟩
    refine ⟨ns, rfl, fun key v found => ?_⟩
    have smaller := sizeOf_lt_of_field listed
    have inside := sizeOf_valueUnder?_lt found
    exact (exists_node?_iff v).mpr (each ns listed key v found)
termination_by sizeOf es

theorem exists_node?_iff (v : Value) : (∃ spec, node? v = some spec) ↔ NodeFits v := by
  cases v with
  | null => exact ⟨fun _ => .null, fun _ => ⟨_, rfl⟩⟩
  | map es =>
      have scope (inner : List (Value × Value)) (listed : (.str "subflow", .map inner) ∈ es) :
          (∃ field, subflowField? (.map inner) = some field) ↔ ScopeFits inner := by
        have smaller := sizeOf_lt_of_field listed
        rw [← exists_scopeOf?_iff inner]
        simp [subflowField?]
      have read : (∃ spec, node? (.map es) = some spec) ↔
          Textual es ∧ Accepted es "post" postField? ∧ Accepted es "choice_cases" casesField? ∧
            Accepted es "subflow" subflowField? := by
        simp only [node?, specOf?_eq_some_iff, exists_and_left, exists_eq', and_true]
      rw [read]
      constructor
      · rintro ⟨textual, post, cases', subflow⟩
        exact .map textual (fun fields listed => exists_postField?_iff.mp (post _ listed) _ rfl)
          (fun items listed => exists_casesField?_iff.mp (cases' _ listed) _ rfl)
          fun inner listed => (scope inner listed).mp (subflow _ listed)
      · rintro (_ | ⟨textual, post, cases', subflow⟩)
        refine ⟨textual, fun v listed => exists_postField?_iff.mpr ?_,
          fun v listed => exists_casesField?_iff.mpr ?_, fun v listed => ?_⟩
        · rintro fields rfl
          exact post fields listed
        · rintro items rfl
          exact cases' items listed
        · cases v with
          | map inner => exact (scope inner listed).mpr (subflow inner listed)
          | _ => exact ⟨_, rfl⟩
  | _ => exact ⟨nofun, nofun⟩
termination_by sizeOf v
decreasing_by
  simp only [Value.map.sizeOf_spec]
  omega

end

/-! ## What it is read as -/

/-- The nodes that a scope has, null being none. -/
def nodesIn (es : List (Value × Value)) : List (Value × Value) :=
  ((Value.map es).get? "nodes").elim [] Value.entries

/-- The keys of the nodes of a scope as texts, each where it first appears. -/
def nodeKeys (es : List (Value × Value)) : List String :=
  ((nodesIn es).map fun e => referenceText e.1).eraseDups

mutual

/-- A mapping is read as a scope: its nodes stand in order under their keys as texts, and
every other field is read, or dropped, by itself. -/
inductive ScopeReads : List (Value × Value) → Flow → Prop where
  | intro {es : List (Value × Value)} {flow : Flow}
      (start : flow.start = slotOf es "start" reference?)
      (edges : flow.edges = slotOf es "edges" edges?)
      (others : flow.others = fieldsBeside ["start", "nodes", "edges"] es)
      (nodes : flow.nodes = slotOf es "nodes" fun _ => some flow.entries)
      (keys : flow.entries.names = nodeKeys es)
      (each : ∀ entry ∈ flow.entries, ∀ v, valueUnder? (nodesIn es) entry.1 = some v →
        NodeReads v entry.2) : ScopeReads es flow

/-- A value is read as a node: every field is read, or dropped, by itself. -/
inductive NodeReads : Value → NodeSpec → Prop where
  | null : NodeReads .null {}
  | map {es : List (Value × Value)} {spec : NodeSpec} (body : Flow)
      (post : spec.post = slotOf es "post" rules?)
      (cases : spec.cases = slotOf es "choice_cases" cases?)
      (defaultAction : spec.defaultAction = slotOf es "default_action" reference?)
      (subflow : spec.subflow = slotOf es "subflow" fun v => if v.isMap then some body else none)
      (others : spec.others =
        fieldsBeside ["post", "choice_cases", "default_action", "subflow"] es)
      (inside : ∀ inner, (Value.map es).get? "subflow" = some (.map inner) →
        ScopeReads inner body) : NodeReads (.map es) spec

end

theorem ScopeReads.keys {es : List (Value × Value)} {flow : Flow} (reads : ScopeReads es flow) :
    flow.entries.names = nodeKeys es := by
  cases reads with
  | intro _ _ _ _ keys _ => exact keys

mutual

theorem scopeReads_of_scopeOf? (es : List (Value × Value)) {flow : Flow}
    (read : scopeOf? es = some flow) : ScopeReads es flow := by
  obtain ⟨-, nodes, -, rfl⟩ := scopeOf?_eq_some_iff.mp read
  cases found : (Value.map es).get? "nodes" with
  | none =>
      have unmentioned : (scopeWith es).nodes = .absent := by
        simp [scopeWith, slotOf, fieldOf, found]
      have entries : (scopeWith es).entries = [] := by rw [Scope.entries, unmentioned]; rfl
      refine .intro rfl rfl rfl ?_ ?_ ?_
      · rw [unmentioned, slotOf, fieldOf, found]
        rfl
      · rw [entries, nodeKeys, nodesIn, found]
        rfl
      · rw [entries]
        exact fun entry member => absurd member List.not_mem_nil
  | some v =>
      obtain ⟨listed, readNodes⟩ := nodes v (mem_of_get? found)
      have given : (scopeWith es).nodes = .given listed := by
        simp [scopeWith, slotOf, fieldOf, found, readNodes, Slot.ofOption]
      have entries : (scopeWith es).entries = listed := by rw [Scope.entries, given]; rfl
      -- Nodes are the only field of a scope that leads further down.
      have keys : listed.names = nodeKeys es ∧ ∀ entry ∈ listed, ∀ w,
          valueUnder? (nodesIn es) entry.1 = some w → NodeReads w entry.2 := by
        rw [nodeKeys, nodesIn, found]
        cases v with
        | null =>
            cases readNodes
            exact ⟨rfl, fun entry member => absurd member List.not_mem_nil⟩
        | map ns =>
            refine ⟨names_of_nodes? readNodes, fun entry member w under => ?_⟩
            have smaller := sizeOf_lt_of_field (mem_of_get? found)
            have inside : sizeOf w < sizeOf ns := sizeOf_valueUnder?_lt under
            exact nodeReads_of_node? w (node?_of_nodes? readNodes member under)
        | _ => contradiction
      refine .intro rfl rfl rfl ?_ ?_ ?_
      · rw [given, slotOf, fieldOf, found, entries]
        rfl
      · rw [entries]
        exact keys.1
      · rw [entries]
        exact keys.2
termination_by sizeOf es

theorem nodeReads_of_node? (v : Value) {spec : NodeSpec} (read : node? v = some spec) :
    NodeReads v spec := by
  cases v with
  | null =>
      cases read
      exact .null
  | map es =>
      obtain ⟨-, -, -, subflow, rfl⟩ := specOf?_eq_some_iff.mp read
      cases found : (Value.map es).get? "subflow" with
      | none =>
          refine .map Flow.empty rfl rfl rfl ?_ rfl ?_
          · simp [nodeOf, slotOf, fieldOf, found]
          · simp [found]
      | some w =>
          obtain ⟨field, readField⟩ := subflow w (mem_of_get? found)
          have held : (nodeOf es).subflow = field := by
            rw [nodeOf, fieldOf, found]
            exact congrArg (Option.getD · .dropped) readField
          cases w with
          | map inner =>
              have smaller := sizeOf_lt_of_field (mem_of_get? found)
              obtain ⟨body, readBody, rfl⟩ := Option.map_eq_some_iff.mp readField
              refine .map body rfl rfl rfl ?_ rfl ?_
              · rw [held, slotOf, fieldOf, found]
                rfl
              · rintro _ same
                cases found.symm.trans same
                exact scopeReads_of_scopeOf? inner readBody
          | _ =>
              cases readField
              refine .map Flow.empty rfl rfl rfl ?_ rfl ?_
              · rw [held, slotOf, fieldOf, found]
                rfl
              · simp [found]
  | _ => contradiction
termination_by sizeOf v
decreasing_by
  subst v
  simp only [Value.map.sizeOf_spec]
  omega

end

/-! ## Texts -/

/-- A text with a mapping defines what this mapping is read as if the mapping fits, with its
nodes under the texts of their keys, and otherwise the flow without nodes. -/
theorem parse_of_mapping {text : String} {language : Option Language}
    {es : List (Value × Value)} (filled : isBlankText text = false)
    (has : HasDocument text language (.map es)) :
    (ScopeFits es → ∃ flow, Flow.parse text language = .ok flow ∧
        flow.entries.names = nodeKeys es ∧ ScopeReads es flow) ∧
      (¬ScopeFits es → Flow.parse text language = .ok .empty) := by
  have parsed : Flow.parse text language = .ok ((scopeOf? es).getD .empty) := by
    rw [parse_of_document filled has.loaded, describedFlow, document?, filled, has.loaded]
    rfl
  rw [parsed]
  constructor
  · intro fits
    obtain ⟨flow, read⟩ := (exists_scopeOf?_iff es).mpr fits
    have reads := scopeReads_of_scopeOf? es read
    exact ⟨flow, by rw [read]; rfl, reads.keys, reads⟩
  · intro misfit
    cases read : scopeOf? es with
    | none => rfl
    | some flow => exact absurd ((exists_scopeOf?_iff es).mp ⟨flow, read⟩) misfit

/-- A text whose only node holds a scope with a list for its nodes. -/
def misshapen : String :=
  "\x7b\"nodes\": \x7b\"a\": \x7b\"subflow\": \x7b\"nodes\": []\x7d\x7d\x7d\x7d"

def misshapenFields : List (Value × Value) :=
  [(.str "nodes", .map [(.str "a", .map [(.str "subflow", .map [(.str "nodes", .seq [])])])])]

theorem load_misshapen : load misshapen (some .json) = .ok (.map misshapenFields) := by
  have read : Json.read misshapen.toList = .ok (.map misshapenFields) := by cbv
  rw [load, read]
  rfl

theorem filled_misshapen : isBlankText misshapen = false := by decide +kernel

/-- The keys of the mapping are texts, its nodes are a mapping of mappings, and it has no
edges. It is discarded for what its node holds, and not even the key of this node is kept. -/
theorem parse_misshapen :
    load misshapen (some .json) = .ok (.map misshapenFields) ∧ Textual misshapenFields ∧
      (∀ e ∈ nodesIn misshapenFields, e.2.isMap = true) ∧
      (Value.map misshapenFields).get? "edges" = none ∧ nodeKeys misshapenFields = ["a"] ∧
      Flow.parse misshapen (some .json) = .ok .empty ∧ Flow.empty.entries.names = [] := by
  refine ⟨load_misshapen, by simp [misshapenFields], ?_, rfl, rfl, ?_, rfl⟩
  · simp [nodesIn, misshapenFields, Value.get?, Value.entries, Value.isMap]
  · rw [parse_of_document filled_misshapen load_misshapen, describedFlow, document?,
      filled_misshapen, load_misshapen]
    rfl

/-- A text with lists for the start and for the rules of its node. -/
def forgiven : String := "\x7b\"start\": [], \"nodes\": \x7b\"a\": \x7b\"post\": []\x7d\x7d\x7d"

def forgivenFields : List (Value × Value) :=
  [(.str "start", .seq []), (.str "nodes", .map [(.str "a", .map [(.str "post", .seq [])])])]

theorem load_forgiven : load forgiven (some .json) = .ok (.map forgivenFields) := by
  have read : Json.read forgiven.toList = .ok (.map forgivenFields) := by cbv
  rw [load, read]
  rfl

/-- The text with misfits that are forgiven defines a flow with its node, and these fields are
dropped. The text with a misshapen scope defines the flow without nodes. -/
theorem parse_of_mapping_forgiven :
    (∃ flow, Flow.parse forgiven (some .json) = .ok flow ∧ flow.entries.names = ["a"] ∧
        flow.start = .dropped ∧ flow.entries.map (·.2.post) = [.dropped]) ∧
      Flow.parse misshapen (some .json) = .ok .empty := by
  have filled : isBlankText forgiven = false := by decide +kernel
  obtain ⟨kept, -⟩ := parse_of_mapping filled ⟨load_forgiven, by decide⟩
  obtain ⟨-, discarded⟩ := parse_of_mapping filled_misshapen ⟨load_misshapen, by decide⟩
  have inside : NodeFits (.map [(.str "post", .seq [])]) :=
    .map (by simp) (by simp) (by simp) (by simp)
  have fits : ScopeFits forgivenFields := by
    refine .intro (by simp [forgivenFields]) (by simp [forgivenFields])
      (by simp [forgivenFields]) ?_
    intro ns listed key v found
    obtain ⟨k, member⟩ := exists_mem_of_valueUnder? found
    obtain rfl : ns = _ := by simpa [forgivenFields] using listed
    obtain ⟨-, rfl⟩ : k = .str "a" ∧ v = _ := by simpa using member
    exact inside
  have misfit : ¬ScopeFits misshapenFields := by
    rintro ⟨-, -, -, each⟩
    obtain _ | ⟨-, -, -, subflow⟩ := each _ (List.mem_singleton_self _) "a" _ rfl
    obtain ⟨-, nodes, -, -⟩ := subflow _ (List.mem_singleton_self _)
    simpa using nodes (.seq []) (List.mem_singleton_self _)
  refine ⟨?_, discarded misfit⟩
  obtain ⟨flow, parsed, names, ⟨start, -, -, -, -, each⟩⟩ := kept fits
  refine ⟨flow, parsed, names, start, ?_⟩
  obtain ⟨⟨key, spec⟩, only, rfl⟩ := List.map_eq_singleton_iff.mp names
  rw [only] at each ⊢
  obtain _ | ⟨-, post, -, -, -, -, -⟩ := each _ (List.mem_singleton_self _) _ rfl
  exact congrArg ([·]) post

end FlowDiagram.Definition
