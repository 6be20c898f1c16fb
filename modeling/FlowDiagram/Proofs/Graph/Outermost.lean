import FlowDiagram.Proofs.Graph.Parts
/-!
# The outermost scope

The graph of a flow is the expansion of its outermost scope with one node marked as the
start. The mark changes nothing that links, ports or parents show, so `bare` nodes are
compared.

The nodes without a parent are those of the outermost keys, in the order of the keys. Each
key thus has its region of the graph: its node with all descendants.
-/

namespace FlowDiagram.Graph

open Definition Transition

/-! ## The mark of the start -/

/-- A node without the mark of the start. -/
def Node.bare (n : Node) : Node := { n with isStart := false }

theorem bare_markStart (id : String) (nodes : List Node) :
    (markStart id nodes).map Node.bare = nodes.map Node.bare := by
  induction nodes with
  | nil => rfl
  | cons n rest ih =>
      rw [markStart]
      split
      · rfl
      · exact congrArg (n.bare :: ·) ih

/-- Two graphs that differ at most in the mark of the start. -/
structure SameButStart (g g' : Graph) : Prop where
  nodes : g.nodes.map Node.bare = g'.nodes.map Node.bare
  edges : g.edges = g'.edges
  entry : g.entry = g'.entry
  exits : g.exits = g'.exits

section

variable {flow : Flow} {g : Graph}

/-- The graph of a flow exists exactly where the expansion does, and is the same but for
the start. -/
theorem exists_ofFlow {inner : Graph} {taken : List String}
    (h : expand "" none [] flow = .ok (inner, taken)) :
    ∃ g, ofFlow flow = .ok g ∧ SameButStart g inner := by
  change ∃ g, (expand "" none [] flow).bind _ = .ok g ∧ SameButStart g inner
  rw [h]
  simp only [Except.bind]
  split
  · next id _ => exact ⟨_, rfl, bare_markStart id _, rfl, rfl, rfl⟩
  · exact ⟨_, rfl, rfl, rfl, rfl, rfl⟩

theorem exists_expand_of_ofFlow (h : ofFlow flow = .ok g) :
    ∃ inner taken, expand "" none [] flow = .ok (inner, taken) ∧ SameButStart g inner := by
  obtain ⟨⟨inner, taken⟩, expanded, -⟩ := bind_eq_ok_iff.mp h
  obtain ⟨g', same, like⟩ := exists_ofFlow expanded
  obtain rfl := Except.ok.inj (h.symm.trans same)
  exact ⟨inner, taken, expanded, like⟩

end

/-! ## Regions -/

/-- The nodes that stand in no group. -/
def roots (g : Graph) : List Node := g.nodes.filter (·.parent.isNone)

/-- An identifier lies in the region of an outermost key: at the node of the key or below
it. The nodes without a parent stand in the order of the keys. -/
def Region (keys : List String) (g : Graph) (key x : String) : Prop :=
  ∃ root, (key, root) ∈ keys.zip g.roots ∧ Inside g.nodes root.id x

theorem Inside.of_bare {nodes nodes' : List Node}
    (same : nodes.map Node.bare = nodes'.map Node.bare) {a x : String}
    (lies : Inside nodes a x) : Inside nodes' a x := by
  induction lies with
  | self => exact .self
  | @child n up member parent further ih =>
      have listed : n.bare ∈ nodes'.map Node.bare := same ▸ List.mem_map_of_mem member
      obtain ⟨n', member', like⟩ := List.mem_map.mp listed
      have id : n'.id = n.id := (congrArg Node.id like :)
      have parent' : n'.parent = n.parent := (congrArg Node.parent like :)
      exact id ▸ .child member' (parent'.trans parent) ih

namespace SameButStart

variable {g g' : Graph}

theorem roots (same : SameButStart g g') : g.roots.map Node.bare = g'.roots.map Node.bare := by
  have through : ∀ nodes : List Node, (nodes.filter (·.parent.isNone)).map Node.bare =
      (nodes.map Node.bare).filter (·.parent.isNone) := fun nodes => by
    rw [List.filter_map]
    rfl
  rw [Graph.roots, Graph.roots, through, through, same.nodes]

theorem symm (same : SameButStart g g') : SameButStart g' g :=
  ⟨same.nodes.symm, same.edges.symm, same.entry.symm, same.exits.symm⟩

theorem ids (same : SameButStart g g') : g.ids = g'.ids := by
  have bare : ∀ nodes : List Node, nodes.map Node.id = (nodes.map Node.bare).map Node.id := by
    intro nodes
    rw [List.map_map]
    rfl
  rw [Graph.ids, Graph.ids, bare, same.nodes, ← bare]

theorem links (same : SameButStart g g') : g.links = g'.links :=
  congrArg (List.map Edge.link) same.edges

theorem isCoherent (same : SameButStart g g') (h : g'.IsCoherent) : g.IsCoherent := by
  rw [IsCoherent, same.ids, same.links, same.exits, same.entry]
  exact h

theorem inside_iff (same : SameButStart g g') {a x : String} :
    Inside g.nodes a x ↔ Inside g'.nodes a x :=
  ⟨.of_bare same.nodes, .of_bare same.nodes.symm⟩

private theorem region_of_region (same : SameButStart g g') {keys : List String}
    {key x : String} (region : Region keys g key x) : Region keys g' key x := by
  obtain ⟨root, paired, lies⟩ := region
  have pairs : (keys.zip g.roots).map (Prod.map id Node.bare) =
      (keys.zip g'.roots).map (Prod.map id Node.bare) := by
    simp only [← List.zip_map, List.map_id, same.roots]
  have listed : (key, root.bare) ∈ (keys.zip g'.roots).map (Prod.map id Node.bare) :=
    pairs ▸ List.mem_map_of_mem paired
  obtain ⟨⟨key', root'⟩, paired', like⟩ := List.mem_map.mp listed
  obtain rfl : key' = key := congrArg Prod.fst like
  have same_id : root'.id = root.id := congrArg (fun pair => pair.2.id) like
  exact ⟨root', paired', same_id ▸ same.inside_iff.mp lies⟩

theorem region_iff (same : SameButStart g g') {keys : List String} {key x : String} :
    Region keys g key x ↔ Region keys g' key x :=
  ⟨same.region_of_region, same.symm.region_of_region⟩

end SameButStart

theorem isCoherent_of_ofFlow {flow : Flow} {g : Graph} (h : ofFlow flow = .ok g) :
    g.IsCoherent := by
  obtain ⟨inner, taken, expanded, like⟩ := exists_expand_of_ofFlow h
  exact like.isCoherent (isCoherent_of_expand expanded)

/-! ## Regions are parts -/

namespace Parted

variable {specs : List (String × NodeSpec)} {emitted : Emitted} {parts : List Part}

/-- The nodes without a parent are the heads of the parts. -/
theorem roots_connect (h : Parted specs none emitted parts) (start : Option String)
    (ts : List Transition) : (connect emitted start ts).roots = parts.map Part.head := by
  have own : ∀ p ∈ parts, p.nodes.filter (·.parent.isNone) = [p.head] := by
    intro p member
    have sound := h.sound p member
    have inner : p.inner.filter (·.parent.isNone) = [] := by
      apply List.filter_eq_nil_iff.mpr
      intro n nested
      obtain ⟨up, -, above⟩ := sound.nested n nested
      simp [above]
    rw [Part.nodes, List.filter_cons_of_pos (by simp [sound.top]), inner]
  change emitted.nodes.filter _ = _
  rw [h.nodes, List.filter_flatMap, List.flatMap_congr own]
  exact List.map_eq_flatMap.symm

theorem region_iff (h : Parted specs none emitted parts) (distinct : emitted.ids.Nodup)
    (start : Option String) (ts : List Transition) {key x : String} :
    Region (Entries.names specs) (connect emitted start ts) key x ↔
      ∃ p ∈ parts, p.key = key ∧ x ∈ p.ids := by
  have outer : ∀ q, (none : Option String) = some q → q ∉ emitted.ids := fun q no => by
    contradiction
  have pairs : (Entries.names specs).zip (connect emitted start ts).roots =
      parts.map fun p => (p.key, p.head) := by
    rw [h.names_eq, h.roots_connect, List.zip_map']
  rw [Region, pairs]
  constructor
  · rintro ⟨root, paired, lies⟩
    obtain ⟨p, member, same⟩ := List.mem_map.mp paired
    obtain ⟨rfl, rfl⟩ := Prod.mk.inj same
    exact ⟨p, member, rfl, (h.inside_head_iff distinct outer member).mp lies⟩
  · rintro ⟨p, member, rfl, known⟩
    refine ⟨p.head, List.mem_map_of_mem member, ?_⟩
    exact (h.inside_head_iff distinct outer member).mpr known

end Parted

/-- The node emitted for a key shows the key and holds what the key stands for. -/
def EmittedFor (entry : String × NodeSpec) (n : Node) : Prop :=
  n.spec = entry.2 ∧ n.label = if n.isGroup then "Subflow: " ++ entry.1 else entry.1

/-- The nodes without a parent are those of the outermost keys, in order. -/
theorem emittedFor_roots_of_ofFlow {flow : Flow} {g : Graph} (h : ofFlow flow = .ok g) :
    List.Forall₂ EmittedFor flow.entries g.roots := by
  obtain ⟨inner, taken, expanded, like⟩ := exists_expand_of_ofFlow h
  obtain ⟨emitted, ts, run, -, rfl⟩ := expand_eq_ok_iff.mp expanded
  obtain ⟨parts, parted⟩ := run.exists_parted
  have heads : List.Forall₂ EmittedFor flow.entries (parts.map Part.head) := by
    rw [parted.specs, List.forall₂_map_left_iff, List.forall₂_map_right_iff, List.forall₂_same]
    exact fun p member => ⟨rfl, (parted.sound p member).shows⟩
  -- The mark of the start shows in neither field.
  have unmarked : ∀ nodes : List Node, List.Forall₂ EmittedFor flow.entries (nodes.map Node.bare) ↔
      List.Forall₂ EmittedFor flow.entries nodes := fun nodes => by
    rw [List.forall₂_map_right_iff]
    rfl
  rw [← unmarked, like.roots, unmarked, parted.roots_connect]
  exact heads

end FlowDiagram.Graph
