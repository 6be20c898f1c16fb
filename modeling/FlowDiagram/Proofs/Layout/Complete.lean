import FlowDiagram.Proofs.Layout.Acyclic
import FlowDiagram.Proofs.Layout.Lifting
import FlowDiagram.Proofs.Lists
/-!
# What a layout looks up is there

The layout of a container looks up the depths of predecessors and successors, the ranks of its
members, their places in layers that are being sorted, the sizes of their boxes and the centres
at which they come to stand. `Complete` says that each of these is found, and
`complete_of_ends` that it holds of any members and any arcs between them, because the cycles
of the arcs are broken before.

Which nodes a layout draws does not depend on the numbers that it computes with
(`ids_spots_eq`), so that what is known of the layout on rational numbers carries over: every
node of the list is drawn (`exists_spot`).
-/

namespace FlowDiagram.Layout

section

variable {ι α : Type} [Coordinate α]

theorem keys_stack (separation middle : α) (extent : ι → Extent α) (top : α) (layer : List ι) :
    (stack separation middle extent top layer).map Prod.fst = layer := by
  induction layer generalizing top with
  | nil => rfl
  | cons v rest ih => rw [stack, List.map_cons, ih]

theorem keys_columns (s : Spacing α) (extent : ι → Extent α) (tallest left : α)
    (layers : List (List ι)) :
    (columns s extent tallest left layers).2.map Prod.fst = layers.flatten := by
  induction layers generalizing left with
  | nil => rfl
  | cons layer rest ih =>
      rw [columns]
      split
      · next empty =>
          obtain rfl := List.isEmpty_iff.mp empty
          exact ih left
      · dsimp only
        rw [List.map_append, keys_stack, ih, List.flatten_cons]

theorem ids_spots (f : Frame ι α) (origin centre : Point α) :
    ∃ corner, (f.spots origin centre).map Spot.id =
      f.id :: (spotsInside corner f.inner).map Spot.id := by
  obtain ⟨id, extent, inner⟩ := f
  exact ⟨_, rfl⟩

end

variable {ι : Type} [DecidableEq ι]

/-! ## Ranks -/

namespace Digraph

variable {g : Digraph ι} {v : ι}

/-- The depths and the ranks of all nodes are known. -/
structure Ranked (g : Digraph ι) : Prop where
  unclosed : g.closingArc? = none
  depth : ∀ v ∈ g.nodes, ∃ d, g.depths.lookup v = some d
  deeper : ∀ a ∈ g.arcs, ∃ d e, g.depths.lookup a.1 = some d ∧ g.depths.lookup a.2 = some e ∧ d < e
  rank : ∀ v ∈ g.nodes, ∃ r < Layers.count g.ranks, g.ranks.lookup v = some r

theorem rank_lt_count (member : v ∈ g.nodes) : g.rank v < Layers.count g.ranks := by
  have bound := Layers.rankOf_lt_count g.ranks v
  rwa [Layers.rankOf, lookup_ranks member, Option.getD_some] at bound

/-- Once its cycles are broken, a graph can be ranked. -/
theorem Closed.ranked (closed : g.Closed) : g.acyclic.Ranked := by
  obtain ⟨f, rising⟩ := exists_rising_acyclic closed
  refine ⟨g.closingArc?_acyclic, ?_, ?_, fun v member => ⟨_, rank_lt_count member,
    lookup_ranks member⟩⟩
  · intro v member
    obtain ⟨d, found, -⟩ := exists_lookup_peel (k := 0) rising (Nat.le_refl _) member
    exact ⟨d, found⟩
  · rintro ⟨u, v⟩ arc
    obtain ⟨hu, hv⟩ := closed.acyclic (u, v) arc
    exact lookup_peel_lt (k := 0) rising (Nat.le_refl _) arc hu hv

end Digraph

/-! ## Places -/

namespace Layers

variable {v : ι} {layer : List ι} {layers : Layers ι}

theorem exists_lastPlace? (member : v ∈ layer) : ∃ i, lastPlace? v layer = some i := by
  induction layer with
  | nil => exact absurd member List.not_mem_nil
  | cons w rest ih =>
      rw [lastPlace?]
      cases later : lastPlace? v rest with
      | some i => exact ⟨i + 1, rfl⟩
      | none =>
          obtain rfl | member := List.mem_cons.mp member
          · exact ⟨0, if_pos rfl⟩
          · obtain ⟨i, found⟩ := ih member
            rw [found] at later
            contradiction

/-- A node of some layer has a place. -/
theorem exists_place (member : v ∈ layers.flatten) :
    ∃ i, layers.findSome? (lastPlace? v) = some i := by
  obtain ⟨layer, listed, inside⟩ := List.mem_flatten.mp member
  obtain ⟨i, found⟩ := exists_lastPlace? inside
  apply Option.isSome_iff_exists.mp
  apply List.findSome?_isSome_iff.mpr
  exact ⟨layer, listed, by simp [found]⟩

end Layers

/-! ## Centres -/

section

variable {α : Type} [Coordinate α]

/-- Every member of a container is placed. -/
theorem keys_content (s : Spacing α) (arcs : List (ι × ι)) (frames : List (Frame ι α)) :
    (content s arcs frames).centres.map Prod.fst =
      (layersOf (frames.map Frame.id) arcs).flatten :=
  keys_columns s _ _ _ _

end

/-! ## Containers -/

/-- All that the layout of a container looks up is there: the ranks, the places of the members
in whatever order single layers are sorted, the boxes of the columns and the centres. The
neighbours of a member are members, so that theirs are there as well. -/
structure Complete (members : List ι) (arcs : List (ι × ι)) : Prop where
  mem_nodes : ∀ v, v ∈ (Digraph.ofLists members arcs).acyclic.nodes ↔ v ∈ members
  ends : ∀ a ∈ (Digraph.ofLists members arcs).acyclic.arcs, a.1 ∈ members ∧ a.2 ∈ members
  ranked : (Digraph.ofLists members arcs).acyclic.Ranked
  some_rank : (Digraph.ofLists members arcs).acyclic.ranks ≠ []
  sorted : ∀ layers : Layers ι,
    layers.SameNodes (.ofRanks (Digraph.ofLists members arcs).acyclic.ranks members) →
    (∀ v ∈ members, ∃ i, layers.findSome? (Layers.lastPlace? v) = some i) ∧
    ∀ (r : Nat) (neighbours : ι → List ι),
      Layers.SameNodes (layers.modify r (layers.sorted neighbours))
        (.ofRanks (Digraph.ofLists members arcs).acyclic.ranks members)
  boxes : ∀ frames : List (Frame ι Float), frames.map Frame.id = members →
    ∀ v ∈ (layersOf members arcs).flatten, ∃ f, frames.find? (·.id = v) = some f
  centres : ∀ (s : Spacing Float) (frames : List (Frame ι Float)), frames.map Frame.id = members →
    ∀ f ∈ frames, ∃ c, (content s arcs frames).centres.reverse.lookup f.id = some c

/-- Nothing is missing where arcs join members. -/
theorem complete_of_ends {members : List ι} {arcs : List (ι × ι)} (some : members ≠ [])
    (ends : ∀ a ∈ arcs, a.1 ∈ members ∧ a.2 ∈ members) : Complete members arcs := by
  have closed : (Digraph.ofLists members arcs).Closed := by
    intro a listed
    obtain ⟨hu, hv⟩ := ends a (List.mem_eraseDups.mp listed)
    exact ⟨List.mem_eraseDups.mpr hu, List.mem_eraseDups.mpr hv⟩
  have mem_nodes (v : ι) : v ∈ (Digraph.ofLists members arcs).acyclic.nodes ↔ v ∈ members := by
    rw [Digraph.nodes_acyclic]
    exact List.mem_eraseDups
  refine ⟨mem_nodes, ?_, closed.ranked, ?_, ?_, ?_, ?_⟩
  · rintro ⟨u, v⟩ arc
    obtain ⟨hu, hv⟩ := closed.acyclic (u, v) arc
    exact ⟨(mem_nodes u).mp hu, (mem_nodes v).mp hv⟩
  · obtain ⟨v, member⟩ := List.exists_mem_of_ne_nil _ some
    have found := Digraph.lookup_ranks ((mem_nodes v).mpr member)
    intro none
    rw [none] at found
    contradiction
  · intro layers same
    have flat := same.flatten_perm.trans (Layers.flatten_ofRanks_perm _ members)
    refine ⟨fun v member => Layers.exists_place (flat.mem_iff.mpr member), ?_⟩
    intro r neighbours
    exact (Layers.sameNodes_modify layers r (layers.sorted_perm neighbours)).trans same
  · intro frames ids v member
    have listed := (flatten_layersOf_perm members arcs).mem_iff.mp member
    rw [← ids] at listed
    obtain ⟨f, framed, same⟩ := List.mem_map.mp listed
    apply Option.isSome_iff_exists.mp
    apply List.find?_isSome.mpr
    exact ⟨f, framed, decide_eq_true same⟩
  · intro s frames ids f member
    apply exists_lookup_of_mem_keys
    rw [List.map_reverse, List.mem_reverse, keys_content, ids]
    apply (flatten_layersOf_perm members arcs).mem_iff.mpr
    exact ids ▸ List.mem_map_of_mem member

/-- Nothing is missing in the layout of the children of a node. -/
theorem complete_children {items : List (Item ι)} (edges : List (ι × ι)) {parent : Option ι}
    (some : children items parent ≠ []) :
    Complete (children items parent) (childArcs items edges parent) := by
  apply complete_of_ends some
  rintro ⟨u, v⟩ arc
  obtain ⟨e, -, lifts, up⟩ := mem_childArcs.mp arc
  exact ⟨mem_children.mpr ⟨lifts.known, up⟩,
    mem_children.mpr ⟨lifts.known', lifts.beside.symm.trans up⟩⟩

/-! ## Drawn nodes -/

mutual

/-- The node of a box and all nodes inside it, from the outside in. -/
def Box.nodes : Box ι → List ι
  | .mk id inner => id :: nodesOfAll inner
termination_by structural b => b

/-- The nodes of several boxes, one box after the other. -/
def nodesOfAll : List (Box ι) → List ι
  | [] => []
  | b :: rest => b.nodes ++ nodesOfAll rest
termination_by structural bs => bs

end

section

variable {α : Type} [Coordinate α]

theorem frames_enclose (s : Spacing α) (arcs : List ι → List (ι × ι)) (id : ι)
    (frames : List (Frame ι α)) : (enclose s arcs id frames).inner.map Prod.snd = frames := by
  rw [enclose]
  split
  · next empty =>
      obtain rfl := List.isEmpty_iff.mp empty
      rfl
  · rw [Frame.inner, List.map_map]
    exact List.map_id' _

mutual

/-- The rectangles of a box are those of its nodes, whatever the numbers are. -/
theorem ids_spots_measure (s : Spacing α) (arcs : List ι → List (ι × ι)) :
    ∀ (b : Box ι) (origin centre : Point α),
      ((measure s arcs b).spots origin centre).map Spot.id = b.nodes
  | .mk id inner, origin, centre => by
      rw [measure, Box.nodes]
      have frames := frames_enclose s arcs id (measureAll s arcs inner)
      obtain ⟨corner, ids⟩ := ids_spots (enclose s arcs id (measureAll s arcs inner)) origin centre
      rw [ids, id_enclose, ids_spotsInside s arcs inner corner _ frames]
termination_by structural b => b

theorem ids_spotsInside (s : Spacing α) (arcs : List ι → List (ι × ι)) :
    ∀ (bs : List (Box ι)) (origin : Point α) (placed : List (Point α × Frame ι α)),
      placed.map Prod.snd = measureAll s arcs bs →
      (spotsInside origin placed).map Spot.id = nodesOfAll bs
  | [], origin, placed, frames => by
      rw [measureAll, List.map_eq_nil_iff] at frames
      subst frames
      rfl
  | b :: rest, origin, placed, frames => by
      rw [measureAll, List.map_eq_cons_iff] at frames
      obtain ⟨⟨centre, f⟩, others, rfl, first, later⟩ := frames
      subst first
      rw [spotsInside, nodesOfAll, List.map_append, ids_spots_measure s arcs b origin centre,
        ids_spotsInside s arcs rest origin others later]
termination_by structural bs => bs

end

/-- A layout draws the nodes of the forest of boxes, whatever the numbers are. -/
theorem ids_spots_eq (s : Spacing α) (items : List (Item ι)) (edges : List (ι × ι)) :
    (Layout.spots s items edges).map Spot.id =
      nodesOfAll (Box.forest items (Parents.kept items)) := by
  apply ids_spotsInside s ((Parents.kept items).liftedArcs edges)
  rw [outermost, List.map_map]
  exact List.map_id' _

/-- Every node of the list is drawn once, whatever the numbers are. -/
theorem spots_perm (s : Spacing α) {items : List (Item ι)} (edges : List (ι × ι))
    (distinct : (items.map (·.id)).Nodup) :
    ((Layout.spots s items edges).map Spot.id).Perm (items.map (·.id)) := by
  have sound := Spacing.sound_of_accepted Settings.accepted_customaryDistances
    Spacing.padded_customaryDistances
  have drawn := ids_spots_perm edges distinct sound
  rwa [ids_spots_eq, ← ids_spots_eq s] at drawn

/-- Every node of the list is drawn. -/
theorem exists_spot (s : Spacing α) {items : List (Item ι)} (edges : List (ι × ι))
    (distinct : (items.map (·.id)).Nodup) {x : ι} (known : x ∈ items.map (·.id)) :
    ∃ spot, (Layout.spots s items edges).find? (·.id = x) = some spot := by
  have drawn := (spots_perm s edges distinct).mem_iff.mpr known
  obtain ⟨spot, member, same⟩ := List.mem_map.mp drawn
  apply Option.isSome_iff_exists.mp
  apply List.find?_isSome.mpr
  exact ⟨spot, member, decide_eq_true same⟩

end

end FlowDiagram.Layout
