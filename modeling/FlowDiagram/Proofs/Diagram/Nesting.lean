import FlowDiagram.Diagram.Display
import FlowDiagram.Proofs.Diagram.Rendering
import FlowDiagram.Proofs.Graph.Preorder
/-!
# Drawn nesting

A node is drawn inside the group of the scope that has its key (`ofFlow_nesting`). Three places
decide what a node is nested in: the expansion names a parent, the layout keeps parents, and the
document mentions the group. All three agree on the names that are not empty.

The outermost key can be empty, and so can the identifier of its group. What stands right in this
group names it as its parent, but neither the layout nor the document takes that for a name, so
these nodes are drawn outside of it.
-/

namespace FlowDiagram.Diagram

open Document Definition Layout FlowDiagram.Graph

/-! ## Shapes -/

/-- The shape of a node with some data. -/
def Shape.showing (node : Node) (data : Entries Value) : Shape where
  id := node.id
  isGroup := node.isGroup
  position := node.position
  data := data
  parent := node.parent?
  isStart := node.isStart
  size := node.size

section

variable {nodes : List Node} {shown : List Shape} {shape : Shape}

theorem ofNode_eq_ok_iff {node : Node} : Shape.ofNode node = .ok shape ↔
    ∃ data, shownData node = .ok data ∧ Shape.showing node data = shape :=
  bind_eq_ok_iff.trans (exists_congr fun _ => and_congr_right fun _ => ⟨Except.ok.inj, congrArg _⟩)

/-- What is drawn are the nodes, each with its data. -/
theorem exists_showing (h : shapes nodes = .ok shown) :
    ∃ data : Node → Entries Value, shown = nodes.map (fun n => Shape.showing n (data n)) ∧
      ∀ n ∈ nodes, shownData n = .ok (data n) := by
  suffices shown = nodes.map (fun n => Shape.showing n ((shownData n).toOption.getD [])) ∧
      ∀ n ∈ nodes, shownData n = .ok ((shownData n).toOption.getD []) from ⟨_, this⟩
  induction nodes generalizing shown with
  | nil => exact ⟨(Except.ok.inj h).symm, fun n member => absurd member List.not_mem_nil⟩
  | cons n rest ih =>
      obtain ⟨shape, own, h⟩ := bind_eq_ok_iff.mp h
      obtain ⟨others, later, h⟩ := bind_eq_ok_iff.mp h
      obtain ⟨data, found, rfl⟩ := ofNode_eq_ok_iff.mp own
      obtain rfl := Except.ok.inj h
      obtain ⟨drawn, each⟩ := ih later
      have kept : (shownData n).toOption.getD [] = data := by rw [found]; rfl
      rw [List.map_cons, ← drawn, kept]
      exact ⟨rfl, List.forall_mem_cons.mpr ⟨kept.symm ▸ found, each⟩⟩

/-- A document mentions the group of a shape, if it has one. -/
theorem get?_parentId (shape : Shape) :
    shape.toValue.get? "parentId" = shape.parent.map Value.str := by
  obtain ⟨id, isGroup, position, data, _ | group, isStart, size⟩ := shape <;>
    cases isGroup <;> cases isStart <;> rfl

theorem get?_extent (shape : Shape) :
    shape.toValue.get? "extent" = shape.parent.map fun _ => .str "parent" := by
  obtain ⟨id, isGroup, position, data, _ | group, isStart, size⟩ := shape <;>
    cases isGroup <;> cases isStart <;> rfl

end

/-! ## The group around a node -/

/-- The upper left corner of a node in the plane. -/
def cornerOf (s : Spacing Float) (g : Graph) (x : String) : Point Float :=
  (spotOf (spots s g.items g.arcs) x).corner

/-- A node is drawn in a group, or in none: its document names the group, and the hierarchical
layout puts it where it is seen from the corner of the group. -/
structure DrawnIn (s : Spacing Float) (layout : String) (g : Graph) (shape : Shape)
    (group : Option String) : Prop where
  parentId : shape.toValue.get? "parentId" = group.map Value.str
  extent : shape.toValue.get? "extent" = group.map fun _ => .str "parent"
  position : layout = "hierarchical" → shape.position = some (match group with
    | none => cornerOf s g shape.id
    | some id => (cornerOf s g shape.id).from (cornerOf s g id))

section

variable {s : Spacing Float} {layout : String} {g : Graph} {d : Diagram}

theorem corner_placement (s : Spacing Float) (g : Graph) (parents : Parents String) (x : String) :
    (placement parents (spots s g.items g.arcs) x).corner =
      match parents.lookup x with
      | none => cornerOf s g x
      | some id => (cornerOf s g x).from (cornerOf s g id) := by
  rw [placement]
  cases parents.lookup x <;> rfl

/-- A diagram of a forest has the nodes of it, each drawn in the parent that has a name. -/
theorem exists_drawn (forest : g.IsForest) (h : ofGraph s layout g = .ok d) :
    ∃ draw : Node → Shape, d.nodes = g.nodes.map draw ∧ ∀ n ∈ g.nodes,
      (draw n).id = n.id ∧ (draw n).isGroup = n.isGroup ∧
        DrawnIn s layout g (draw n) n.parent? := by
  obtain ⟨algorithm, chosen, h⟩ := bind_eq_ok_iff.mp h
  obtain ⟨shown, drawn, h⟩ := bind_eq_ok_iff.mp h
  obtain rfl := Except.ok.inj h
  obtain ⟨data, rfl, -⟩ := exists_showing drawn
  cases algorithm with
  | hierarchical =>
      let move (n : Node) : Node :=
        put n (placement (Parents.kept g.items) (spots s g.items g.arcs) n.id)
      refine ⟨fun n => Shape.showing (move n) (data (move n)), ?_, fun n member => ?_⟩
      · rw [arranged, nodes_laidOut_eq, List.map_map]
        rfl
      · refine ⟨rfl, rfl, get?_parentId _, get?_extent _, fun _ => ?_⟩
        have corner := corner_placement s g (Parents.kept g.items) n.id
        rw [forest.lookup_kept member] at corner
        exact congrArg some corner
  | manual =>
      refine ⟨fun n => Shape.showing n (data n), rfl, fun n member => ?_⟩
      refine ⟨rfl, rfl, get?_parentId _, get?_extent _, fun named => ?_⟩
      rw [named] at chosen
      have other := chosen.symm.trans (chosenAlgorithm_name .hierarchical)
      contradiction

end

/-! ## Drawn flows -/

/-- The group that names itself in front of what stands in it: none if its key is the empty one
of the outermost scope. -/
def namedGroup (around : Listed × Shape) : Option String :=
  if around.1.path = [""] then none else some around.2.id

/-- The nodes of a diagram, with the entries of a flow that they show: each is drawn in the group
of its scope, which stands in front of it. -/
structure ShowsNesting (s : Spacing Float) (layout : String) (flow : Flow) (g : Graph)
    (d : Diagram) (pairs : List (Listed × Shape)) : Prop where
  listed : pairs.map Prod.fst = outline flow.entries
  drawn : pairs.map Prod.snd = d.nodes
  paths : (pairs.map fun p => p.1.path).Nodup
  ids : (pairs.map fun p => p.2.id).Nodup
  spots : ((spots s g.items g.arcs).map Spot.id).Perm (pairs.map fun p => p.2.id)
  nested : ∀ p ∈ pairs, (∃ key, p.1.path = [key]) ∧ DrawnIn s layout g p.2 none ∨
    ∃ around, [around, p].Sublist pairs ∧ around.2.isGroup = true ∧
      (∃ key, p.1.path = around.1.path ++ [key]) ∧ DrawnIn s layout g p.2 (namedGroup around)

theorem ofFlow_expanded_eq_ok {s : Spacing Float} {layout : String} {flow : Flow} {d : Diagram}
    (h : ofFlow s layout true flow = .ok d) :
    ∃ g, Graph.ofFlow flow = .ok g ∧ ofGraph s layout g = .ok d := by
  obtain ⟨g, made, drawn⟩ := bind_eq_ok_iff.mp h
  cases expanded : Graph.ofFlow flow with
  | error e => rw [if_pos rfl, expanded] at made; contradiction
  | ok g' =>
      rw [if_pos rfl, expanded] at made
      obtain rfl := Except.ok.inj made
      exact ⟨g', rfl, drawn⟩

/-- A node of a flow is drawn inside the group of the embedded scope that has its key, unless the
key of this group is the empty one of the outermost scope. -/
theorem ofFlow_nesting {s : Spacing Float} {layout : String} {flow : Flow} {d : Diagram}
    (keyed : Flow.Keyed flow) (h : ofFlow s layout true flow = .ok d) :
    ∃ g pairs, Graph.ofFlow flow = .ok g ∧ ShowsNesting s layout flow g d pairs := by
  obtain ⟨g, expanded, made⟩ := ofFlow_expanded_eq_ok h
  have forest := isForest_of_ofFlow expanded
  obtain ⟨inner, taken, emits, like⟩ := exists_expand_of_ofFlow expanded
  obtain ⟨emitted, ts, run, -, rfl⟩ := expand_eq_ok_iff.mp emits
  obtain ⟨rows, traverses, nodes, named⟩ := run.exists_rows like.nodes
  obtain ⟨draw, drawn, each⟩ := exists_drawn forest made
  have member {r : Row} (row : r ∈ rows) : r.2 ∈ g.nodes := nodes ▸ List.mem_map_of_mem row
  have ids : (rows.map fun r => (draw r.2).id) = g.ids := by
    rw [Graph.ids, ← nodes, Graph.drawn, List.map_map]
    exact List.map_congr_left fun r row => (each r.2 (member row)).1
  refine ⟨g, rows.map fun r => (r.1, draw r.2), expanded, ?_, ?_, ?_, ?_, ?_, ?_⟩
  · rw [List.map_map, ← traverses.listed]
    rfl
  · rw [List.map_map, drawn, ← nodes, Graph.drawn, List.map_map]
    rfl
  · rw [List.map_map]
    exact traverses.nodup_paths keyed.distinct fun entry listed _ => keyed.embedded listed
  · rw [List.map_map]
    exact ids ▸ forest.distinct
  · rw [List.map_map]
    have all := spots_perm s g.arcs ((ids_items g).symm ▸ forest.distinct)
    rw [ids_items] at all
    exact ids ▸ all
  · refine List.forall_mem_map.mpr fun r row => ?_
    obtain ⟨-, -, shown⟩ := each r.2 (member row)
    refine (traverses.outer_or_under r row).imp (And.imp_right fun top => ?_) ?_
    · rwa [Node.parent?, top] at shown
    · rintro ⟨around, before, under⟩
      have row' : around ∈ rows := before.subset List.mem_cons_self
      obtain ⟨id, group, -⟩ := each around.2 (member row')
      have empty : around.2.id = "" ↔ around.1.path = [""] := by
        simpa using named keyed.distinct around row'
      have earlier := before.map fun r => (r.1, draw r.2)
      refine ⟨(around.1, draw around.2), earlier, group.trans under.holds, under.path, ?_⟩
      have same : namedGroup (around.1, draw around.2) = r.2.parent? := by
        rw [namedGroup, Node.parent?, under.parent, Option.filter_some, id]
        simp [empty]
      exact same ▸ shown

/-- In the hierarchical layout, the nodes of two scopes in each other name their groups. -/
theorem ofFlow_nesting_reviewing :
    Flow.Keyed reviewing ∧ ∃ d, ofFlow Settings.customary.spacing "hierarchical" true reviewing =
      .ok d ∧ d.nodes.map Shape.parent = [none, none, some "review", some "review",
        some "review_check", some "review_check", none] ∧
      ∃ g pairs, Graph.ofFlow reviewing = .ok g ∧
        ShowsNesting Settings.customary.spacing "hierarchical" reviewing g d pairs :=
  ⟨keyed_reviewing, _, rfl, rfl, ofFlow_nesting keyed_reviewing rfl⟩

/-- A flow whose only node has an empty key and a scope in it. -/
def unnamed : Flow where
  nodes := .given [("", {
    subflow := .given { nodes := .given [("a", {})] }
    others := [("kind", .str "subflow")] })]

/-- The key `a` stands in the scope of a group, but its node is drawn in no group. -/
theorem ofFlow_nesting_unnamed :
    Reaches unnamed.entries ["", "a"] {} ∧
      ∃ d around inner, ofFlow Settings.customary.spacing "manual" true unnamed = .ok d ∧
        d.nodes = [around, inner] ∧ around.isGroup = true ∧ inner.id = "a" ∧
        inner.toValue.get? "parentId" = none ∧ inner.toValue.get? "extent" = none := by
  refine ⟨.inside (.head _) rfl (.own (.head _)), ?_⟩
  exact ⟨_, _, _, rfl, rfl, rfl, rfl, rfl, rfl⟩

end FlowDiagram.Diagram
