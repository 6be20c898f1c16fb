import FlowDiagram.Graph.Basic
import FlowDiagram.Proofs.Layout.Reordering
import FlowDiagram.Proofs.Layout.Repair
/-!
# Each edge counts in one container

A container is the plane with the outermost nodes, or a node with the nodes directly in it. The
boxes of a forest hold each node once, so each node is around one container, and its members are
the children of that node (`containers_perm`).

The same edges are lifted in every container. Where the ends of an edge are not nested in each
other, they part in one place: below the innermost node around both (`Meet`) they lie in two
different children. There the edge gives the arc between these, and nowhere else
(`Lifts.contributions_eq`). All other edges give no arc at all (`contributions_eq_nil`). A layout
reads edges in no other way (`placements_of_containers`).
-/

namespace FlowDiagram.Layout

open Parents

/-! ## Containers of boxes -/

/-- The node around a container, if there is one, and the nodes directly in it. -/
structure Container (ι : Type) where
  around : Option ι
  members : List ι

mutual

/-- The containers of a box and of all boxes inside it. -/
def Box.containers {ι : Type} : Box ι → List (Container ι)
  | .mk id inner => ⟨some id, inner.map Box.id⟩ :: containersOfAll inner
termination_by structural b => b

def containersOfAll {ι : Type} : List (Box ι) → List (Container ι)
  | [] => []
  | b :: rest => b.containers ++ containersOfAll rest
termination_by structural bs => bs

end

mutual

/-- Where boxes hold the children of their nodes, their containers do. -/
theorem Box.containers_eq {ι : Type} {kids : ι → List ι} :
    ∀ b : Box ι, b.Whole kids → b.containers = b.nodes.map fun id => ⟨some id, kids id⟩
  | .mk id inner, whole => by
      obtain ⟨own, each⟩ := whole
      rw [Box.containers, Box.nodes, List.map_cons, own, containersOfAll_eq inner each]
termination_by structural b => b

theorem containersOfAll_eq {ι : Type} {kids : ι → List ι} :
    ∀ bs : List (Box ι), (∀ b ∈ bs, b.Whole kids) →
      containersOfAll bs = (nodesOfAll bs).map fun id => ⟨some id, kids id⟩
  | [], _ => rfl
  | b :: rest, each => by
      obtain ⟨first, others⟩ := List.forall_mem_cons.mp each
      rw [containersOfAll, nodesOfAll, List.map_append, Box.containers_eq b first,
        containersOfAll_eq rest others]
termination_by structural bs => bs

end

variable {ι : Type} [DecidableEq ι] {items : List (Item ι)} {edges edges' : List (ι × ι)}
variable {parent : Option ι} {e : ι × ι} {a b x y q : ι}

/-- The containers of a layout. -/
def containers (items : List (Item ι)) : List (Container ι) :=
  ⟨none, (Box.forest items (kept items)).map Box.id⟩ ::
    containersOfAll (Box.forest items (kept items))

/-- Every node is around one container, and so is the plane. The members are the children. -/
theorem containers_perm (distinct : (items.map (·.id)).Nodup) :
    (containers items).Perm
      ((none :: (items.map (·.id)).map some).map fun c => ⟨c, children items c⟩) := by
  have boxes := containersOfAll_eq _ fun b => Box.whole_forest distinct (b := b)
  rw [containers, boxes, Box.ids_forest, List.map_cons, List.map_map]
  exact ((Box.nodes_forest_perm distinct).map _).cons _

/-- Whatever is the parent of some node is around a container. -/
theorem mem_arounds (distinct : (items.map (·.id)).Nodup)
    (up : (kept items).lookup x = parent) : parent ∈ none :: (items.map (·.id)).map some := by
  cases parent with
  | none => exact List.mem_cons_self
  | some p => exact .tail _ (List.mem_map_of_mem (mem_of_lookup_kept distinct up).2)

/-! ## Where two nodes part -/

/-- The innermost node that two nodes lie within, or nothing where they lie within none in
common. -/
def Meet (parents : Parents ι) (x y : ι) : Option ι → Prop
  | some p => Within parents p x ∧ Within parents p y ∧
      ∀ q, Within parents q x → Within parents q y → Within parents q p
  | none => ∀ q, Within parents q x → ¬Within parents q y

/-- What is around two nodes that lie in different nodes side by side is around these. -/
theorem Lifts.exists_parent (h : Lifts items e a b) (around : Within (kept items) q e.1)
    (around' : Within (kept items) q e.2) :
    ∃ p, (kept items).lookup a = some p ∧ Within (kept items) q p := by
  have outside : ¬Within (kept items) a e.2 := fun lies =>
    (grounded_kept items).apart h.other h.beside lies h.target
  obtain inner | outer := h.source.total around
  · exact absurd (inner.trans around') outside
  · cases outer with
    | self => exact absurd around' outside
    | step up above => exact ⟨_, up, above⟩

/-- The ends of an edge meet in the node around the two that they lie in side by side. -/
theorem Lifts.meet (h : Lifts items e a b) :
    Meet (kept items) e.1 e.2 ((kept items).lookup a) := by
  cases up : (kept items).lookup a with
  | none =>
      intro q around around'
      obtain ⟨p, above, -⟩ := h.exists_parent around around'
      rw [up] at above
      contradiction
  | some p =>
      refine ⟨(Within.of_lookup up).trans h.source,
        (Within.of_lookup (h.beside.symm.trans up)).trans h.target, ?_⟩
      intro q around around'
      obtain ⟨p', above, lies⟩ := h.exists_parent around around'
      obtain rfl := Option.some.inj (up.symm.trans above)
      exact lies

/-- The ends of an edge that counts lie in different nodes side by side. -/
theorem Counts.exists_lifts (distinct : (items.map (·.id)).Nodup) (h : Counts items e) :
    ∃ a b, Lifts items e a b := by
  obtain lies | lies | ⟨a, b, other, beside, source, target⟩ :=
    (grounded_kept items).within_or_apart e.1 e.2
  · exact absurd lies h.apart
  · exact absurd lies h.apart'
  · exact ⟨a, b, mem_of_within_kept distinct source h.known,
      mem_of_within_kept distinct target h.known', beside, other, source, target⟩

/-! ## The arc of one edge -/

/-- The arc that an edge gives between the members of a container. -/
def Parents.arc? (parents : Parents ι) (members : List ι) (e : ι × ι) : Option (ι × ι) :=
  match parents.lift members (parents.length + 1) e.1,
    parents.lift members (parents.length + 1) e.2 with
  | some u, some v => if u = v then none else some (u, v)
  | _, _ => none

/-- Edges are lifted one by one. -/
theorem liftedArcs_eq_filterMap (parents : Parents ι) (edges : List (ι × ι)) (members : List ι) :
    parents.liftedArcs edges members = edges.filterMap (parents.arc? members) := rfl

theorem arc?_eq_some_iff {parents : Parents ι} {members : List ι} {arc : ι × ι} :
    parents.arc? members e = some arc ↔ arc ∈ parents.liftedArcs [e] members := by
  rw [liftedArcs_eq_filterMap, List.mem_filterMap]
  simp only [List.mem_singleton, exists_eq_left]

/-- The arc of an edge joins the children that its ends lie in. -/
theorem childArc?_eq_some_iff :
    (kept items).arc? (children items parent) e = some (a, b) ↔
      Lifts items e a b ∧ (kept items).lookup a = parent := by
  rw [arc?_eq_some_iff]
  refine mem_childArcs.trans ⟨?_, fun h => ⟨e, List.mem_singleton_self e, h⟩⟩
  rintro ⟨e', same, h⟩
  exact List.mem_singleton.mp same ▸ h

theorem childArc?_eq_none_iff :
    (kept items).arc? (children items parent) e = none ↔
      ∀ a b, Lifts items e a b → (kept items).lookup a ≠ parent := by
  simp only [Option.eq_none_iff_forall_ne_some, Prod.forall, ne_eq, childArc?_eq_some_iff, not_and]

/-! ## Arcs in all containers -/

/-- The arcs that an edge gives in the containers of a layout, each with what is around it. -/
def contributions (items : List (Item ι)) (e : ι × ι) : List (Option ι × ι × ι) :=
  (containers items).filterMap fun c =>
    ((kept items).arc? c.members e).map fun arc => (c.around, arc)

theorem contributions_perm (distinct : (items.map (·.id)).Nodup) (e : ι × ι) :
    (contributions items e).Perm ((none :: (items.map (·.id)).map some).filterMap fun c =>
      ((kept items).arc? (children items c) e).map fun arc => (c, arc)) := by
  refine ((containers_perm distinct).filterMap _).trans (.of_eq ?_)
  rw [List.filterMap_map]
  rfl

/-- An edge that counts gives one arc, where its ends part. -/
theorem Lifts.contributions_eq (distinct : (items.map (·.id)).Nodup) (h : Lifts items e a b) :
    contributions items e = [((kept items).lookup a, a, b)] := by
  have differ : (none :: (items.map (·.id)).map some).Nodup :=
    List.nodup_cons.mpr ⟨by simp, distinct.map (Option.some_injective _)⟩
  apply List.perm_singleton.mp
  refine (contributions_perm distinct e).trans (.of_eq ?_)
  apply filterMap_eq_singleton differ (mem_arounds distinct rfl)
  · rw [childArc?_eq_some_iff.mpr ⟨h, rfl⟩]
    rfl
  · -- An arc in another container would join the same children, and these have one parent.
    intro c _ elsewhere
    refine Option.map_eq_none_iff.mpr (childArc?_eq_none_iff.mpr ?_)
    rintro u v h' rfl
    exact elsewhere (by rw [(h'.unique h).1])

/-- An edge that does not count gives no arc. -/
theorem contributions_eq_nil (distinct : (items.map (·.id)).Nodup) (h : ¬Counts items e) :
    contributions items e = [] := by
  apply List.perm_nil.mp
  refine (contributions_perm distinct e).trans (.of_eq ?_)
  apply List.filterMap_eq_nil_iff.mpr
  intro c _
  refine Option.map_eq_none_iff.mpr (childArc?_eq_none_iff.mpr fun a b lifts => ?_)
  exact absurd (lifts.counts distinct) h

/-! ## What a layout reads -/

theorem liftedArcs_nil (parents : Parents ι) (edges : List (ι × ι)) :
    parents.liftedArcs edges [] = [] := by
  apply List.eq_nil_iff_forall_not_mem.mpr
  rintro ⟨a, b⟩ arc
  obtain ⟨e, -, from_a, -⟩ := mem_liftedArcs.mp arc
  exact absurd (within_of_lift from_a).1 List.not_mem_nil

/-- Edges that give the same arcs in each container are laid out alike. -/
theorem placements_of_containers (distinct : (items.map (·.id)).Nodup)
    (same : ∀ c ∈ containers items,
      (kept items).liftedArcs edges c.members = (kept items).liftedArcs edges' c.members)
    {α : Type} [Coordinate α] (s : Spacing α) :
    placements s items edges = placements s items edges' := by
  have arcs : ∀ parent, childArcs items edges parent = childArcs items edges' parent := by
    intro parent
    obtain empty | filled := eq_or_ne (children items parent) []
    · rw [childArcs, childArcs, empty, liftedArcs_nil, liftedArcs_nil]
    · obtain ⟨child, member⟩ := List.exists_mem_of_ne_nil _ filled
      have listed := mem_arounds distinct (mem_children.mp member).2
      exact same ⟨parent, children items parent⟩
        ((containers_perm distinct).mem_iff.mpr (List.mem_map_of_mem listed))
  have contents : ∀ parent (frames : List (Frame ι α)),
      content s ((kept items).liftedArcs edges (children items parent)) frames =
        content s ((kept items).liftedArcs edges' (children items parent)) frames :=
    fun parent frames => congrArg (content s · frames) (arcs parent)
  rw [placements, placements, spots, spots, outermost_congr contents]

end FlowDiagram.Layout

namespace FlowDiagram.Graph

open Layout Parents

/-- An edge between two nodes of a graph that are not nested in each other gives one arc in all
containers of a layout together: in the one that belongs to the innermost node around both, or to
the plane, it joins the two children that its ends lie in, and these differ. Every other edge
gives no arc. The containers are those of all nodes and of the plane, with the nodes directly in
them, and a layout depends on nothing else of the edges than these arcs. -/
theorem edges_lifted_once (g : Graph) (distinct : g.ids.Nodup) :
    (containers g.items).Perm ((none :: g.ids.map some).map fun c =>
      ⟨c, g.ids.filter fun x => (kept g.items).lookup x = c⟩) ∧
    (∀ edges members, (kept g.items).liftedArcs edges members =
      edges.filterMap ((kept g.items).arc? members)) ∧
    (∀ x y, x ∈ g.ids → y ∈ g.ids → ¬Within (kept g.items) x y → ¬Within (kept g.items) y x →
      ∃ c a b, Meet (kept g.items) x y c ∧ a ∈ g.ids ∧ b ∈ g.ids ∧ a ≠ b ∧
        (kept g.items).lookup a = c ∧ (kept g.items).lookup b = c ∧
        Within (kept g.items) a x ∧ Within (kept g.items) b y ∧
        contributions g.items (x, y) = [(c, a, b)]) ∧
    (∀ x y, ¬(x ∈ g.ids ∧ y ∈ g.ids ∧ ¬Within (kept g.items) x y ∧
      ¬Within (kept g.items) y x) → contributions g.items (x, y) = []) ∧
    ∀ edges', (∀ c ∈ containers g.items,
      (kept g.items).liftedArcs g.arcs c.members = (kept g.items).liftedArcs edges' c.members) →
      ∀ (α : Type) [Coordinate α] (s : Spacing α),
        placements s g.items g.arcs = placements s g.items edges' := by
  rw [← ids_items] at distinct ⊢
  refine ⟨containers_perm distinct, liftedArcs_eq_filterMap _, ?_, ?_, ?_⟩
  · intro x y known known' apart apart'
    obtain ⟨a, b, h⟩ :=
      Counts.exists_lifts (e := (x, y)) distinct ⟨known, known', apart, apart'⟩
    exact ⟨_, a, b, h.meet, h.known, h.known', h.other, rfl, h.beside.symm, h.source, h.target,
      h.contributions_eq distinct⟩
  · intro x y other
    apply contributions_eq_nil distinct
    rintro ⟨known, known', apart, apart'⟩
    exact other ⟨known, known', apart, apart'⟩
  · intro edges' same α _ s
    exact placements_of_containers distinct same s

/-- An edge out of a group to a node in another one leads between the groups, and an edge from the
group to a node in it leads nowhere. -/
theorem edges_lifted_once_tangled :
    tangled.ids.Nodup ∧
      contributions tangled.items ("desk", "right") = [(none, "team", "left")] ∧
      Meet (kept tangled.items) "desk" "right" none ∧
      Within (kept tangled.items) "team" "desk" ∧ Within (kept tangled.items) "left" "right" ∧
      contributions tangled.items ("team", "lead") = [] := by
  have distinct : tangled.ids.Nodup := by decide
  have desk : Chain (kept tangled.items) "desk" ["desk", "team"] := .step rfl (.top rfl)
  have right : Chain (kept tangled.items) "right" ["right", "left"] := .step rfl (.top rfl)
  obtain ⟨-, -, counting, others, -⟩ := edges_lifted_once tangled distinct
  obtain ⟨c, a, b, meet, -, -, -, -, -, source, target, only⟩ := counting "desk" "right"
    (by decide) (by decide) (right.mem_iff.not.mp (by decide)) (desk.mem_iff.not.mp (by decide))
  have computed : contributions tangled.items ("desk", "right") = [(none, "team", "left")] := by
    decide
  obtain ⟨rfl, rfl, rfl⟩ : c = none ∧ a = "team" ∧ b = "left" := by
    simpa using only.symm.trans computed
  refine ⟨distinct, computed, meet, source, target, others "team" "lead" fun counts => ?_⟩
  exact counts.2.2.1 (.of_lookup rfl)

end FlowDiagram.Graph
