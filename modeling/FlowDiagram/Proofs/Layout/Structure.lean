import FlowDiagram.Graph.Basic
import FlowDiagram.Proofs.Layout.Nesting
import FlowDiagram.Proofs.Layout.Renaming
import Mathlib.Logic.Equiv.Basic
/-!
# A layout sees structure only

Frames and rectangles carry the names of their nodes. Under other names they have the same sizes
and stand in the same places, so a layout reports the same placements (`placements_renamed`).

A graph holds more than a layout looks at. Two graphs whose nodes are `Alike`, in the same order
and with the same arcs between them, are laid out alike (`laidOut_alike`). The empty name must be
kept, because it is no parent.
-/

namespace FlowDiagram.Layout

variable {ι κ α : Type} {f : ι → κ}

/-! ## Arrangements -/

/-- An arrangement of boxes under other names. -/
def Arrangement.renamed (f : ι → κ) (a : Arrangement ι α) : Arrangement κ α :=
  ⟨a.extent, a.centres.map (Prod.map f id)⟩

theorem Arrangement.extent_renamed (f : ι → κ) (a : Arrangement ι α) :
    (a.renamed f).extent = a.extent := rfl

section

variable [Coordinate α] {extent : ι → Extent α} {extent' : κ → Extent α}
variable (each : ∀ v, extent' (f v) = extent v)
include each

theorem stack_renamed (separation middle top : α) (layer : List ι) :
    stack separation middle extent' top (layer.map f) =
      (stack separation middle extent top layer).map (Prod.map f id) := by
  induction layer generalizing top with
  | nil => rfl
  | cons v rest ih => simp only [List.map_cons, stack, each, ih, Prod.map_apply, id]

theorem columns_renamed (s : Spacing α) (tallest left : α) (layers : Layers ι) :
    columns s extent' tallest left (layers.renamed f) =
      ((columns s extent tallest left layers).1,
        (columns s extent tallest left layers).2.map (Prod.map f id)) := by
  induction layers generalizing left with
  | nil => rfl
  | cons layer rest ih =>
      rw [Layers.renamed] at ih
      simp only [Layers.renamed, List.map_cons, columns, List.isEmpty_map, List.map_map,
        Function.comp_def, each, ih, stack_renamed each]
      split
      · rfl
      · rw [List.map_append]

theorem arrange_renamed (s : Spacing α) (layers : Layers ι) :
    arrange s extent' (layers.renamed f) = (arrange s extent layers).renamed f := by
  simp only [arrange, columns_renamed each]
  simp only [Layers.renamed, List.map_map, Function.comp_def, each]
  rfl

end

/-! ## Frames -/

mutual

/-- A frame under another name, and all frames inside it too. -/
def Frame.renamed (f : ι → κ) : Frame ι α → Frame κ α
  | .mk id extent inner => .mk (f id) extent (renamedInside f inner)
termination_by structural frame => frame

def renamedInside (f : ι → κ) : List (Point α × Frame ι α) → List (Point α × Frame κ α)
  | [] => []
  | (centre, frame) :: rest => (centre, frame.renamed f) :: renamedInside f rest
termination_by structural frames => frames

end

theorem renamedInside_eq (f : ι → κ) (placed : List (Point α × Frame ι α)) :
    renamedInside f placed = placed.map (Prod.map id (Frame.renamed f)) := by
  induction placed with
  | nil => rfl
  | cons first rest ih => rw [renamedInside, ih, List.map_cons, Prod.map, id]

theorem Frame.id_renamed (f : ι → κ) (frame : Frame ι α) : (frame.renamed f).id = f frame.id := by
  cases frame
  rfl

theorem Frame.extent_renamed (f : ι → κ) (frame : Frame ι α) :
    (frame.renamed f).extent = frame.extent := by
  cases frame
  rfl

theorem ids_frames_renamed (f : ι → κ) (frames : List (Frame ι α)) :
    (frames.map (Frame.renamed f)).map Frame.id = (frames.map Frame.id).map f := by
  rw [List.map_map, List.map_map]
  exact List.map_congr_left fun frame _ => frame.id_renamed f

section

variable [DecidableEq ι] [DecidableEq κ] [Coordinate α] (injective : Function.Injective f)
include injective

theorem extentIn_renamed (frames : List (Frame ι α)) (id : ι) :
    extentIn (frames.map (Frame.renamed f)) (f id) = extentIn frames id := by
  rw [extentIn, extentIn, List.find?_map, Option.map_map]
  simp only [Function.comp_def, Frame.id_renamed, Frame.extent_renamed, injective.eq_iff]

theorem content_renamed (s : Spacing α) (arcs : List (ι × ι)) (frames : List (Frame ι α)) :
    content s (arcs.map (Prod.map f f)) (frames.map (Frame.renamed f)) =
      (content s arcs frames).renamed f := by
  simp only [content, ids_frames_renamed, Digraph.ofLists_renamed injective,
    Digraph.acyclic_renamed injective, Digraph.ranks_renamed injective,
    Layers.ordered_renamed injective]
  exact arrange_renamed (extentIn_renamed injective frames) s _

theorem centre_renamed (a : Arrangement ι α) (v : ι) :
    (a.renamed f).centre (f v) = a.centre v := by
  rw [Arrangement.centre, Arrangement.centre, Arrangement.renamed, ← List.map_reverse,
    lookup_map_map injective, Option.map_id, id]

section

variable {arcs : List ι → List (ι × ι)} {arcs' : List κ → List (κ × κ)}
variable (lifted : ∀ members, arcs' (members.map f) = (arcs members).map (Prod.map f f))
include lifted

theorem enclose_renamed (s : Spacing α) (id : ι) (frames : List (Frame ι α)) :
    enclose s arcs' (f id) (frames.map (Frame.renamed f)) =
      (enclose s arcs id frames).renamed f := by
  rw [enclose, enclose, List.isEmpty_map]
  split
  · rfl
  · simp only [ids_frames_renamed, lifted, content_renamed injective, Arrangement.extent_renamed]
    rw [Frame.renamed, renamedInside_eq]
    refine congrArg (Frame.mk _ _) (List.map_map.trans (.trans ?_ List.map_map.symm))
    refine List.map_congr_left fun frame _ => ?_
    rw [Function.comp_apply, Function.comp_apply, Frame.id_renamed, centre_renamed injective,
      List.count_map_of_injective _ _ injective, Prod.map_apply, id_eq]

theorem measure_grow_renamed (s : Spacing α) (items : List (Item ι)) (parents : Parents ι)
    (n : Nat) (id : ι) :
    measure s arcs' (Box.grow (items.map (Item.renamed f)) (parents.renamed f) n (f id)) =
      (measure s arcs (Box.grow items parents n id)).renamed f := by
  induction n generalizing id with
  | zero => exact enclose_renamed injective lifted s id []
  | succ n ih =>
      have children := childrenOf_renamed injective items parents (some id)
      rw [Option.map_some] at children
      rw [measure_grow_succ, measure_grow_succ, children, List.map_map,
        ← enclose_renamed injective lifted, List.map_map]
      simp only [Function.comp_def, ih]

theorem outermost_renamed (s : Spacing α) (frames : List (Frame ι α)) :
    outermost s arcs' (frames.map (Frame.renamed f)) =
      renamedInside f (outermost s arcs frames) := by
  rw [outermost, outermost, ids_frames_renamed, lifted, content_renamed injective, renamedInside_eq,
    List.map_map, List.map_map]
  refine List.map_congr_left fun frame _ => ?_
  rw [Function.comp_apply, Function.comp_apply, Frame.id_renamed, centre_renamed injective,
    Prod.map_apply, id_eq]

end

end

/-! ## Rectangles -/

/-- The rectangle of a node under another name. -/
def Spot.renamed (f : ι → κ) (spot : Spot ι α) : Spot κ α := ⟨f spot.id, spot.corner, spot.extent⟩

section

variable [Coordinate α]

mutual

/-- The rectangles of frames under other names are where they were. -/
theorem Frame.spots_renamed (f : ι → κ) :
    ∀ (origin centre : Point α) (frame : Frame ι α),
      (frame.renamed f).spots origin centre = (frame.spots origin centre).map (Spot.renamed f)
  | origin, centre, .mk id extent inner => by
      rw [Frame.renamed, Frame.spots, Frame.spots, spotsInside_renamed f _ inner]
      rfl
termination_by structural _ _ frame => frame

theorem spotsInside_renamed (f : ι → κ) :
    ∀ (origin : Point α) (placed : List (Point α × Frame ι α)),
      spotsInside origin (renamedInside f placed) =
        (spotsInside origin placed).map (Spot.renamed f)
  | origin, [] => rfl
  | origin, (centre, frame) :: rest => by
      rw [renamedInside, spotsInside, spotsInside, Frame.spots_renamed f origin centre frame,
        spotsInside_renamed f origin rest, List.map_append]
termination_by structural _ placed => placed

end

end

section

variable [DecidableEq ι] [DecidableEq κ] [Coordinate α] (injective : Function.Injective f)
include injective

theorem spots_renamed (s : Spacing α) (items : List (Item ι)) (edges : List (ι × ι)) :
    spots s (items.map (Item.renamed f)) (edges.map (Prod.map f f)) =
      (spots s items edges).map (Spot.renamed f) := by
  have lifted := Parents.liftedArcs_renamed injective (Parents.kept items) edges
  have roots := childrenOf_renamed injective items (Parents.kept items) none
  rw [Option.map_none] at roots
  have frames : measureAll s
      (((Parents.kept items).renamed f).liftedArcs (edges.map (Prod.map f f)))
      (Box.forest (items.map (Item.renamed f)) ((Parents.kept items).renamed f)) =
      (measureAll s ((Parents.kept items).liftedArcs edges)
        (Box.forest items (Parents.kept items))).map (Frame.renamed f) := by
    rw [measureAll_eq_map, measureAll_eq_map, Box.forest, Box.forest, roots, List.length_map,
      List.map_map, List.map_map, List.map_map, List.map_map]
    exact List.map_congr_left fun id _ => measure_grow_renamed injective lifted s _ _ _ id
  rw [spots, spots, Parents.kept_renamed injective, frames, outermost_renamed injective lifted]
  exact spotsInside_renamed f _ _

theorem spotOf_renamed (spots : List (Spot ι α)) (id : ι) :
    spotOf (spots.map (Spot.renamed f)) (f id) = (spotOf spots id).renamed f := by
  rw [spotOf, spotOf, List.find?_map]
  simp only [Function.comp_def, Spot.renamed, injective.eq_iff]
  cases spots.find? (·.id = id) <;> rfl

theorem placement_renamed (parents : Parents ι) (spots : List (Spot ι α)) (id : ι) :
    placement (parents.renamed f) (spots.map (Spot.renamed f)) (f id) =
      placement parents spots id := by
  simp only [placement, spotOf_renamed injective, Parents.lookup_renamed injective]
  cases parents.lookup id with
  | none => rfl
  | some parent => simp only [Option.map_some, spotOf_renamed injective]; rfl

/-- A layout does not see names. -/
theorem placements_renamed (s : Spacing α) (items : List (Item ι)) (edges : List (ι × ι)) :
    placements s (items.map (Item.renamed f)) (edges.map (Prod.map f f)) =
      placements s items edges := by
  rw [placements, placements, List.map_map, spots_renamed injective, Parents.kept_renamed injective]
  exact List.map_congr_left fun item _ => placement_renamed injective _ _ item.id

end

end FlowDiagram.Layout

/-! ## Graphs -/

namespace FlowDiagram.Graph

open Layout

/-- Two nodes that a layout tells apart by their names alone, which are changed by `f`. Labels,
entries, marks of the start and places from before may differ. -/
structure Node.Alike (f : String → String) (n n' : Node) : Prop where
  id : n'.id = f n.id
  parent : n'.parent = n.parent.map f
  isGroup : n'.isGroup = n.isGroup
  size : n.isGroup = false → n'.size = n.size

/-- Where the nodes of a graph are, and how large. -/
def places (g : Graph) : List (Option (Point Float) × Option (Extent Float)) :=
  g.nodes.map fun n => (n.position, n.size)

section

variable {f : String → String} {n n' : Node} {nodes nodes' : List Node}

theorem Node.Alike.item (h : n.Alike f n') (injective : Function.Injective f)
    (empty : f "" = "") : n'.item = n.item.renamed f := by
  have named (x : String) : (f x).isEmpty = x.isEmpty := by
    rw [Bool.eq_iff_iff, String.isEmpty_iff, String.isEmpty_iff]
    exact ⟨fun same => injective (same.trans empty.symm), fun same => same ▸ empty⟩
  rw [Node.item, Node.parent?, h.id, h.parent, Option.filter_map]
  simp only [Function.comp_def, named]
  rfl

theorem items_of_alike (injective : Function.Injective f) (empty : f "" = "")
    (alike : List.Forall₂ (Node.Alike f) nodes nodes') :
    nodes'.map Node.item = (nodes.map Node.item).map (Item.renamed f) := by
  induction alike with
  | nil => rfl
  | cons first rest ih => rw [List.map_cons, List.map_cons, List.map_cons, ih,
      first.item injective empty]

theorem places_of_alike (alike : List.Forall₂ (Node.Alike f) nodes nodes')
    (placements : List (Placement Float)) :
    ((List.zipWith put nodes' placements).map fun n => (n.position, n.size)) =
      (List.zipWith put nodes placements).map fun n => (n.position, n.size) := by
  induction alike generalizing placements with
  | nil => rfl
  | @cons n n' rest rest' first others ih =>
      cases placements with
      | nil => rfl
      | cons p placements =>
          rw [List.zipWith_cons_cons, List.zipWith_cons_cons, List.map_cons, List.map_cons, ih]
          have size : (put n' p).size = (put n p).size := by
            rw [put, put, first.isGroup]
            cases group : n.isGroup with
            | true => rfl
            | false => exact first.size group
          rw [size]
          rfl

end

/-- A layout sees structure only: other names, of which the empty one is kept, and other labels,
entries, marks and edge names leave every node in its place and with its size. -/
theorem laidOut_alike (s : Spacing Float) {f : String → String} (injective : Function.Injective f)
    (empty : f "" = "") {g g' : Graph} (nodes : List.Forall₂ (Node.Alike f) g.nodes g'.nodes)
    (arcs : g'.arcs = g.arcs.map (Prod.map f f)) :
    (g'.laidOut s).places = (g.laidOut s).places := by
  have items : g'.items = g.items.map (Item.renamed f) := items_of_alike injective empty nodes
  have same : placements s g'.items g'.arcs = placements s g.items g.arcs := by
    rw [items, arcs, placements_renamed injective]
  rw [places, places, laidOut, laidOut, same]
  exact places_of_alike nodes _

/-- A group in which a node occurs twice, with two edges that lead there and back. -/
def doubled : Graph where
  nodes := [
    { id := "team", isGroup := true, label := "" },
    { id := "lead", parent := some "team", label := "" },
    { id := "lead", parent := some "team", label := "" },
    { id := "desk", label := "" }]
  edges := [⟨"", "lead", "desk", none⟩, ⟨"", "desk", "lead", none⟩]

/-- The same graph with two names exchanged and with other labels. -/
def doubledExchanged : Graph where
  nodes := [
    { id := "desk", isGroup := true, label := "group", isStart := true },
    { id := "lead", parent := some "desk", label := "first", position := some ⟨3, 4⟩ },
    { id := "lead", parent := some "desk", label := "second" },
    { id := "team", label := "last" }]
  edges := [⟨"there", "lead", "team", some "go"⟩, ⟨"back", "team", "lead", none⟩]

def exchange : Equiv.Perm String := Equiv.swap "team" "desk"

/-- Every node of the second graph is where the same one of the first is. -/
theorem laidOut_alike_doubled :
    Function.Injective exchange ∧ exchange "" = "" ∧
      List.Forall₂ (Node.Alike exchange) doubled.nodes doubledExchanged.nodes ∧
      doubledExchanged.arcs = doubled.arcs.map (Prod.map exchange exchange) ∧
      (doubledExchanged.laidOut Settings.customary.spacing).places =
        (doubled.laidOut Settings.customary.spacing).places := by
  have empty : exchange "" = "" := by decide
  have nodes : List.Forall₂ (Node.Alike exchange) doubled.nodes doubledExchanged.nodes :=
    .cons ⟨by decide, by decide, rfl, fun _ => rfl⟩
      (.cons ⟨by decide, by decide, rfl, fun _ => rfl⟩
        (.cons ⟨by decide, by decide, rfl, fun _ => rfl⟩
          (.cons ⟨by decide, by decide, rfl, fun _ => rfl⟩ .nil)))
  have arcs : doubledExchanged.arcs = doubled.arcs.map (Prod.map exchange exchange) := by decide
  exact ⟨exchange.injective, empty, nodes, arcs,
    laidOut_alike Settings.customary.spacing exchange.injective empty nodes arcs⟩

end FlowDiagram.Graph
